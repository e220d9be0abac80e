import Wasim.Binary.Layout

/-!
# The records of control instructions

The comment on `Instruction_Opcode` documents what stands in the extra bytes of a `block`, a
`loop` and an `if`: the block type, immediately followed by the index of the first instruction
of the body, and for an `if` immediately followed by the index of the first instruction of the
`else` branch, or zero. `Expr.readControl` reads an expression back by that comment.

The reader writes the two halves of a record around the extra bytes of the body, so a record
can be read back only if the body has no extra bytes, or they happen to spell what should
stand there. `binReadExpr_readBack_iff` says so exactly.
-/

namespace Wasim

/-! ### The documented record -/

/-- What the documentation puts into the extra bytes of a control instruction. `else_` is
there for an `if` only, and zero if it has no `else`. -/
structure ControlRecord where
  types : List UInt8
  body : ℕ
  else_ : Option ℕ
  deriving DecidableEq, Repr

/-- A `u32` at the start of a byte string. -/
def readWord (bs : List UInt8) : Option ℕ :=
  if 4 ≤ bs.length then some (LittleEndian.value (bs.take 4)) else none

/-- Read a record at the start of a byte string. -/
def readRecord (isIf : Bool) : List UInt8 → Option ControlRecord
  | [] => none
  | n :: bs =>
    if n.toNat ≤ bs.length then do
      let body ← readWord (bs.drop n.toNat)
      if isIf then
        let els ← readWord (bs.drop (n.toNat + 4))
        return ⟨bs.take n.toNat, body, some els⟩
      else return ⟨bs.take n.toNat, body, none⟩
    else none

/-- Read the record of the instruction at index `i` by the documentation. -/
def Expr.readControl (e : Expr) (i : ℕ) : Option ControlRecord := do
  let inst ← e.instructions[i]?
  readRecord (inst.opcode = Opcode.ifOp) (e.extras.drop inst.extra.toNat)

namespace ControlRecord

/-- The two numbers of a record as bytes. -/
def words (r : ControlRecord) : List UInt8 :=
  LittleEndian.bytes 4 r.body ++ (r.else_.map (LittleEndian.bytes 4)).getD []

def bytes (r : ControlRecord) : List UInt8 :=
  UInt8.ofNat r.types.length :: (r.types ++ r.words)

/-- The numbers of a record fit into their fields. -/
structure Fits (r : ControlRecord) : Prop where
  types : r.types.length < 2 ^ 8
  body : r.body < 2 ^ 32
  else_ : ∀ x ∈ r.else_, x < 2 ^ 32

end ControlRecord

theorem readWord_eq_some {bs : List UInt8} {x : ℕ} :
    readWord bs = some x ↔ x < 2 ^ 32 ∧ LittleEndian.bytes 4 x <+: bs := by
  unfold readWord
  constructor
  · intro h
    split at h
    · rename_i hlen
      have htake : (bs.take 4).length = 4 := by simp [hlen]
      have hlt := LittleEndian.value_lt (bs.take 4)
      have hbytes := LittleEndian.bytes_value (bs.take 4)
      rw [htake] at hlt hbytes
      obtain rfl := Option.some.inj h
      exact ⟨by simpa using hlt, by rw [hbytes]; exact List.take_prefix 4 bs⟩
    · cases h
  · rintro ⟨hlt, ⟨tail, rfl⟩⟩
    rw [if_pos (by simp), List.take_append_of_le_length (by simp), List.take_of_length_le (by simp),
      LittleEndian.value_bytes, Nat.mod_eq_of_lt (by simpa using hlt)]

/-- Reading a record back: exactly the bytes of the record, and nothing else, are read as
that record. -/
theorem readRecord_eq_some {isIf : Bool} {bs : List UInt8} {r : ControlRecord} :
    readRecord isIf bs = some r ↔ r.else_.isSome = isIf ∧ r.Fits ∧ r.bytes <+: bs := by
  constructor
  · intro h
    match bs, h with
    | n :: bs, h =>
      rw [readRecord] at h
      split at h
      · rename_i hn
        have htypes : (bs.take n.toNat).length = n.toNat := List.length_take_of_le hn
        obtain ⟨body, hbody, h⟩ := Option.bind_eq_some_iff.mp h
        obtain ⟨hlt, ⟨tail, htail⟩⟩ := readWord_eq_some.mp hbody
        have hbs : bs.take n.toNat ++ (LittleEndian.bytes 4 body ++ tail) = bs := by
          rw [htail, List.take_append_drop]
        split at h
        · rename_i hif
          obtain ⟨els, hels, h⟩ := Option.bind_eq_some_iff.mp h
          obtain ⟨hlt', ⟨tail', htail'⟩⟩ := readWord_eq_some.mp hels
          obtain rfl := Option.some.inj h
          have hdrop : bs.drop (n.toNat + 4) = tail := by
            rw [← List.drop_drop, ← htail, List.drop_left' (by simp)]
          refine ⟨hif.symm, ⟨by simpa [htypes] using n.toNat_lt, hlt, by simpa using hlt'⟩,
            ⟨tail', ?_⟩⟩
          simp only [ControlRecord.bytes, ControlRecord.words, htypes, UInt8.ofNat_toNat,
            Option.map_some, Option.getD_some, List.cons_append, List.append_assoc, htail', hdrop,
            hbs]
        · rename_i hif
          obtain rfl := Option.some.inj h
          refine ⟨by simpa using hif, ⟨by simpa [htypes] using n.toNat_lt, hlt, by simp⟩,
            ⟨tail, ?_⟩⟩
          simp only [ControlRecord.bytes, ControlRecord.words, htypes, UInt8.ofNat_toNat,
            Option.map_none, Option.getD_none, List.cons_append, List.append_assoc,
            List.nil_append, hbs]
      · cases h
  · rintro ⟨rfl, ⟨htypes, hbody, helse⟩, ⟨tail, rfl⟩⟩
    obtain ⟨types, body, else_⟩ := r
    have hn : (UInt8.ofNat types.length).toNat = types.length := by
      rw [UInt8.toNat_ofNat']
      exact Nat.mod_eq_of_lt htypes
    have hword : ∀ (x : ℕ) (t : List UInt8), x < 2 ^ 32 →
        readWord (LittleEndian.bytes 4 x ++ t) = some x :=
      fun x t hx => readWord_eq_some.mpr ⟨hx, List.prefix_append _ _⟩
    rw [ControlRecord.bytes, List.cons_append, readRecord, hn]
    dsimp only
    rw [List.append_assoc, if_pos (by simp), List.drop_left, List.take_left, ← List.drop_drop,
      List.drop_left, ControlRecord.words, List.append_assoc, hword _ _ hbody]
    cases else_ with
    | none => rfl
    | some x =>
      rw [List.drop_left' (by simp), Option.map_some, Option.getD_some, hword _ _ (helse x rfl)]
      rfl

/-! ### The control instructions of a sequence -/

/-- The three forms of a control instruction. -/
inductive ControlKind where
  | block (isLoop : Bool)
  | ifThen
  | ifElse (elseBody : Instrs)

/-- A control instruction of a sequence, with the index it gets and the offset at which its
extra bytes start. -/
structure Control where
  kind : ControlKind
  type : Option ValueType
  body : Instrs
  index : ℕ
  offset : ℕ

def IsControl (op : InstructionOpcode) : Prop := op = 0x02 ∨ op = 0x03 ∨ op = 0x04

instance : DecidablePred IsControl := fun _ => inferInstanceAs (Decidable (_ ∨ _))

namespace Control

def opcode (k : Control) : InstructionOpcode :=
  match k.kind with
  | .block isLoop => blockOp isLoop
  | .ifThen => 0x04
  | .ifElse _ => 0x04

/-- The index of the first instruction of the `else` branch. -/
def elseIndex (k : Control) : ℕ := k.index + k.body.size + 2

/-- What the documentation wants to be read back for the instruction. -/
def record (k : Control) : ControlRecord where
  types := k.type.toList.map ValueType.toByte
  body := k.index + 1
  else_ := match k.kind with
    | .block _ => none
    | .ifThen => some 0
    | .ifElse _ => some k.elseIndex

/-- What is written behind the block type: the extra bytes of the body, the index of the body,
and for an `if` the extra bytes of the `else` branch and its index. -/
def written (k : Control) : List UInt8 :=
  k.body.payload (k.index + 1) ++ (le32 (UInt32.ofNat (k.index + 1)) ++
    match k.kind with
    | .block _ => []
    | .ifThen => le32 0
    | .ifElse els => els.payload k.elseIndex ++ le32 (UInt32.ofNat k.elseIndex))

end Control

/-- The control instructions of a sequence whose first instruction gets the index `pos` and
whose extra bytes start at `offset`, in the order of their indices. -/
def Instrs.controls : Instrs → ℕ → ℕ → List Control
  | nil, _, _ => []
  | plain i rest, pos, offset => rest.controls (pos + 1) (offset + i.payload.length)
  | block isLoop type body rest, pos, offset =>
    ⟨.block isLoop, type, body, pos, offset⟩ ::
      (body.controls (pos + 1) (offset + (blockTypeBytes type).length) ++
        rest.controls (pos + body.size + 2)
          (offset + (blockTypeBytes type).length + body.payloadSize + 4))
  | ifThen type body rest, pos, offset =>
    ⟨.ifThen, type, body, pos, offset⟩ ::
      (body.controls (pos + 1) (offset + (blockTypeBytes type).length) ++
        rest.controls (pos + body.size + 2)
          (offset + (blockTypeBytes type).length + body.payloadSize + 8))
  | ifElse type body els rest, pos, offset =>
    ⟨.ifElse els, type, body, pos, offset⟩ ::
      (body.controls (pos + 1) (offset + (blockTypeBytes type).length) ++
        (els.controls (pos + body.size + 2)
            (offset + (blockTypeBytes type).length + body.payloadSize + 4) ++
          rest.controls (pos + body.size + els.size + 3)
            (offset + (blockTypeBytes type).length + body.payloadSize + 4 +
              els.payloadSize + 4)))

/-- Where a control instruction stands in the flat form of its sequence. -/
structure Control.Within (k : Control) (is : Instrs) (pos offset : ℕ) : Prop where
  flat : ∃ pre post, is.flat offset = pre ++ ⟨k.opcode, UInt32.ofNat k.offset⟩ :: post ∧
    pos + pre.length = k.index
  payload : ∃ pre post, is.payload pos = pre ++ (blockTypeBytes k.type ++ k.written) ++ post ∧
    offset + pre.length = k.offset

/-- A part of a sequence, put between other instructions and other extra bytes. -/
theorem Control.Within.mono {k : Control} {is is' : Instrs} {pos pos' offset offset' : ℕ}
    (h : k.Within is pos offset) {f g : List Instruction} {p q : List UInt8}
    (hflat : is'.flat offset' = f ++ (is.flat offset ++ g))
    (hpayload : is'.payload pos' = p ++ (is.payload pos ++ q))
    (hpos : pos = pos' + f.length) (hoffset : offset = offset' + p.length) :
    k.Within is' pos' offset' := by
  obtain ⟨⟨pre, post, hf, hi⟩, ⟨pre', post', hp, ho⟩⟩ := h
  refine ⟨⟨f ++ pre, post ++ g, ?_, ?_⟩, ⟨p ++ pre', post' ++ q, ?_, ?_⟩⟩
  · rw [hflat, hf]
    simp only [List.append_assoc, List.cons_append]
  · rw [List.length_append]
    omega
  · rw [hpayload, hp]
    simp only [List.append_assoc]
  · rw [List.length_append]
    omega

theorem Instrs.within_of_mem_controls {is : Instrs} {pos offset : ℕ} {k : Control}
    (hk : k ∈ is.controls pos offset) : k.Within is pos offset := by
  induction is generalizing pos offset with
  | nil => cases hk
  | plain i rest ih =>
    exact (ih hk).mono (f := [⟨i.opcode, i.extra offset⟩]) (g := []) (p := i.payload)
      (q := []) (by simp [flat]) (by simp [payload]) rfl rfl
  | block isLoop type body rest ihb ihr =>
    rcases List.mem_cons.mp hk with rfl | hk
    · refine ⟨⟨[], _, rfl, rfl⟩, ⟨[], rest.payload (pos + body.size + 2), ?_, rfl⟩⟩
      simp [payload, Control.written]
    rcases List.mem_append.mp hk with hk | hk
    · exact (ihb hk).mono (f := [⟨blockOp isLoop, UInt32.ofNat offset⟩]) rfl rfl rfl rfl
    · exact (ihr hk).mono
        (f := ⟨blockOp isLoop, UInt32.ofNat offset⟩ ::
          (body.flat (offset + (blockTypeBytes type).length) ++ [⟨0x0B, 0⟩])) (g := [])
        (p := blockTypeBytes type ++
          (body.payload (pos + 1) ++ le32 (UInt32.ofNat (pos + 1)))) (q := [])
        (by simp [flat]) (by simp [payload]) (by simp [Nat.add_assoc])
        (by simp [le32, Nat.add_assoc])
  | ifThen type body rest ihb ihr =>
    rcases List.mem_cons.mp hk with rfl | hk
    · refine ⟨⟨[], _, rfl, rfl⟩, ⟨[], rest.payload (pos + body.size + 2), ?_, rfl⟩⟩
      simp [payload, Control.written]
    rcases List.mem_append.mp hk with hk | hk
    · exact (ihb hk).mono (f := [⟨0x04, UInt32.ofNat offset⟩]) rfl rfl rfl rfl
    · exact (ihr hk).mono
        (f := ⟨0x04, UInt32.ofNat offset⟩ ::
          (body.flat (offset + (blockTypeBytes type).length) ++ [⟨0x0B, 0⟩])) (g := [])
        (p := blockTypeBytes type ++
          (body.payload (pos + 1) ++ (le32 (UInt32.ofNat (pos + 1)) ++ le32 0))) (q := [])
        (by simp [flat]) (by simp [payload]) (by simp [Nat.add_assoc])
        (by simp [le32, Nat.add_assoc])
  | ifElse type body els rest ihb ihe ihr =>
    rcases List.mem_cons.mp hk with rfl | hk
    · refine ⟨⟨[], _, rfl, rfl⟩, ⟨[], rest.payload (pos + body.size + els.size + 3), ?_, rfl⟩⟩
      simp [payload, Control.written, Control.elseIndex]
    rcases List.mem_append.mp hk with hk | hk
    · exact (ihb hk).mono (f := [⟨0x04, UInt32.ofNat offset⟩]) rfl rfl rfl rfl
    rcases List.mem_append.mp hk with hk | hk
    · exact (ihe hk).mono
        (f := ⟨0x04, UInt32.ofNat offset⟩ ::
          (body.flat (offset + (blockTypeBytes type).length) ++ [⟨0x05, 0⟩]))
        (g := ⟨0x0B, 0⟩ :: rest.flat (offset + (blockTypeBytes type).length +
          body.payloadSize + 4 + els.payloadSize + 4))
        (p := blockTypeBytes type ++
          (body.payload (pos + 1) ++ le32 (UInt32.ofNat (pos + 1))))
        (q := le32 (UInt32.ofNat (pos + body.size + 2)) ++
          rest.payload (pos + body.size + els.size + 3))
        (by simp [flat]) (by simp [payload]) (by simp [Nat.add_assoc])
        (by simp [le32, Nat.add_assoc])
    · exact (ihr hk).mono
        (f := ⟨0x04, UInt32.ofNat offset⟩ ::
          (body.flat (offset + (blockTypeBytes type).length) ++ ⟨0x05, 0⟩ ::
          (els.flat (offset + (blockTypeBytes type).length + body.payloadSize + 4) ++
            [⟨0x0B, 0⟩]))) (g := [])
        (p := blockTypeBytes type ++ (body.payload (pos + 1) ++ (le32 (UInt32.ofNat (pos + 1)) ++
          (els.payload (pos + body.size + 2) ++ le32 (UInt32.ofNat (pos + body.size + 2))))))
        (q := [])
        (by simp [flat]) (by simp [payload]) (by simp; omega) (by simp [le32, Nat.add_assoc])

theorem Control.Within.index_lt {k : Control} {is : Instrs} {pos offset : ℕ}
    (h : k.Within is pos offset) : pos ≤ k.index ∧ k.index < pos + is.size := by
  obtain ⟨⟨pre, post, hf, hi⟩, -⟩ := h
  have hlen := congrArg List.length hf
  rw [Instrs.length_flat, List.length_append, List.length_cons] at hlen
  omega

/-- The indices of the control instructions grow. -/
theorem Instrs.pairwise_controls (is : Instrs) (pos offset : ℕ) :
    (is.controls pos offset).Pairwise fun a b => a.index < b.index := by
  have hbound : ∀ {is : Instrs} {pos offset : ℕ} {k : Control}, k ∈ is.controls pos offset →
      pos ≤ k.index ∧ k.index < pos + is.size := fun hk => (within_of_mem_controls hk).index_lt
  induction is generalizing pos offset with
  | nil => exact List.Pairwise.nil
  | plain i rest ih => exact ih _ _
  | block isLoop type body rest ihb ihr =>
    refine List.pairwise_cons.mpr ⟨fun k hk => ?_, List.pairwise_append.mpr
      ⟨ihb _ _, ihr _ _, fun a ha b hb => ?_⟩⟩
    · rcases List.mem_append.mp hk with hk | hk <;> have := hbound hk <;> dsimp only <;> omega
    · have := hbound ha
      have := hbound hb
      omega
  | ifThen type body rest ihb ihr =>
    refine List.pairwise_cons.mpr ⟨fun k hk => ?_, List.pairwise_append.mpr
      ⟨ihb _ _, ihr _ _, fun a ha b hb => ?_⟩⟩
    · rcases List.mem_append.mp hk with hk | hk <;> have := hbound hk <;> dsimp only <;> omega
    · have := hbound ha
      have := hbound hb
      omega
  | ifElse type body els rest ihb ihe ihr =>
    refine List.pairwise_cons.mpr ⟨fun k hk => ?_, List.pairwise_append.mpr
      ⟨ihb _ _, List.pairwise_append.mpr ⟨ihe _ _, ihr _ _, fun a ha b hb => ?_⟩,
        fun a ha b hb => ?_⟩⟩
    · rcases List.mem_append.mp hk with hk | hk
      · have := hbound hk
        dsimp only
        omega
      · rcases List.mem_append.mp hk with hk | hk <;> have := hbound hk <;> dsimp only <;> omega
    · have := hbound ha
      have := hbound hb
      omega
    · have := hbound ha
      rcases List.mem_append.mp hb with hb | hb <;> have := hbound hb <;> omega

/-- A control instruction is known by its index. -/
theorem Instrs.eq_of_mem_controls {is : Instrs} {pos offset : ℕ} {k k' : Control}
    (hk : k ∈ is.controls pos offset) (hk' : k' ∈ is.controls pos offset)
    (h : k.index = k'.index) : k = k' := by
  have hp := is.pairwise_controls pos offset
  exact List.Pairwise.forall_of_forall_of_flip (R := fun a b => a.index = b.index → a = b)
    (fun _ _ _ => rfl) (hp.imp fun hlt heq => absurd heq (Nat.ne_of_lt hlt))
    (hp.imp fun hlt heq => absurd heq (Nat.ne_of_gt hlt)) hk hk' h

private theorem getElem?_append_cons {α : Type*} {xs ys : List α} {a x : α} {j : ℕ}
    (h : (xs ++ a :: ys)[j]? = some x) :
    xs[j]? = some x ∨ x = a ∨ ∃ m, j = xs.length + 1 + m ∧ ys[m]? = some x := by
  rcases Nat.lt_trichotomy j xs.length with hj | rfl | hj
  · exact .inl (by rwa [List.getElem?_append_left hj] at h)
  · exact .inr (.inl (by simpa using h.symm))
  · obtain ⟨m, rfl⟩ := Nat.exists_eq_add_of_lt hj
    refine .inr (.inr ⟨m, by omega, ?_⟩)
    rw [List.getElem?_append_right (by omega), show xs.length + m + 1 - xs.length = m + 1 by omega,
      List.getElem?_cons_succ] at h
    exact h

theorem PlainInstr.not_isControl {i : PlainInstr} {b : List UInt8} (hi : i.Encodes b) :
    ¬IsControl i.opcode := by
  have hcase : ∀ op : InstructionOpcode, IsControl op →
      ¬NullaryOp op ∧ ¬IndexOp op ∧ ¬MemargOp op ∧ ¬MemoryOp op := by
    rintro op (rfl | rfl | rfl) <;> decide
  cases hi with
  | nullary h => exact fun hc => (hcase _ hc).1 h
  | index h => exact fun hc => (hcase _ hc).2.1 h
  | memarg h => exact fun hc => (hcase _ hc).2.2.1 h
  | memory h => exact fun hc => (hcase _ hc).2.2.2 h
  | brTable => simp [opcode, IsControl]
  | callIndirect => simp [opcode, IsControl]
  | i32Const => simp [opcode, IsControl]
  | i64Const => simp [opcode, IsControl]
  | f32Const => simp [opcode, IsControl]
  | f64Const => simp [opcode, IsControl]

/-- Every control opcode in the flat form of an encodable sequence is the opcode of one of its
control instructions. -/
theorem Instrs.exists_control {is : Instrs} {b : List UInt8} (he : is.Encodes b)
    {p offset j : ℕ} {inst : Instruction} (hj : (is.flat offset)[j]? = some inst)
    (hc : IsControl inst.opcode) : ∃ k ∈ is.controls p offset, k.index = p + j := by
  have hend : ¬IsControl 0x0B := by decide
  have helse : ¬IsControl 0x05 := by decide
  induction he generalizing p offset j with
  | nil => simp [flat] at hj
  | @plain i rest b r hi hr ih =>
    cases j with
    | zero =>
      obtain rfl : inst = ⟨i.opcode, i.extra offset⟩ := by simpa [flat] using hj.symm
      exact absurd hc (PlainInstr.not_isControl hi)
    | succ j =>
      obtain ⟨k, hk, hidx⟩ := ih (p := p + 1) (by simpa [flat] using hj)
      exact ⟨k, hk, by omega⟩
  | @block isLoop type body rest t b r ht hb hr ihb ihr =>
    cases j with
    | zero => exact ⟨_, List.mem_cons_self, rfl⟩
    | succ j =>
      rcases getElem?_append_cons (by simpa [flat] using hj) with h | rfl | ⟨m, rfl, h⟩
      · obtain ⟨k, hk, hidx⟩ := ihb (p := p + 1) h
        exact ⟨k, List.mem_cons_of_mem _ (List.mem_append_left _ hk), by omega⟩
      · exact absurd hc hend
      · obtain ⟨k, hk, hidx⟩ := ihr (p := p + body.size + 2) h
        exact ⟨k, List.mem_cons_of_mem _ (List.mem_append_right _ hk), by simp; omega⟩
  | @ifThen type body rest t b r ht hb hr ihb ihr =>
    cases j with
    | zero => exact ⟨_, List.mem_cons_self, rfl⟩
    | succ j =>
      rcases getElem?_append_cons (by simpa [flat] using hj) with h | rfl | ⟨m, rfl, h⟩
      · obtain ⟨k, hk, hidx⟩ := ihb (p := p + 1) h
        exact ⟨k, List.mem_cons_of_mem _ (List.mem_append_left _ hk), by omega⟩
      · exact absurd hc hend
      · obtain ⟨k, hk, hidx⟩ := ihr (p := p + body.size + 2) h
        exact ⟨k, List.mem_cons_of_mem _ (List.mem_append_right _ hk), by simp; omega⟩
  | @ifElse type body els rest t b e r ht hb he hr ihb ihe ihr =>
    cases j with
    | zero => exact ⟨_, List.mem_cons_self, rfl⟩
    | succ j =>
      rcases getElem?_append_cons (by simpa [flat] using hj) with h | rfl | ⟨m, rfl, h⟩
      · obtain ⟨k, hk, hidx⟩ := ihb (p := p + 1) h
        exact ⟨k, List.mem_cons_of_mem _ (List.mem_append_left _ hk), by omega⟩
      · exact absurd hc helse
      rcases getElem?_append_cons h with h₂ | rfl | ⟨m₂, rfl, h₂⟩
      · obtain ⟨k, hk, hidx⟩ := ihe (p := p + body.size + 2) h₂
        exact ⟨k, List.mem_cons_of_mem _ (List.mem_append_right _ (List.mem_append_left _ hk)),
          by simp; omega⟩
      · exact absurd hc hend
      · obtain ⟨k, hk, hidx⟩ := ihr (p := p + body.size + els.size + 3) h₂
        exact ⟨k, List.mem_cons_of_mem _ (List.mem_append_right _ (List.mem_append_right _ hk)),
          by simp; omega⟩

/-! ### Reading the records back -/

/-- Every `block`, `loop` and `if` of the expression can be read back by the documentation:
what is read for it is the record of the control instruction of the sequence that stands
there. -/
def ControlsReadBack (is : Instrs) (e : Expr) : Prop :=
  ∀ i inst, e.instructions[i]? = some inst → IsControl inst.opcode →
    ∃ k ∈ is.controls 1 1, k.index = i ∧ e.readControl i = some k.record

/-- The record of a control instruction comes out whole. Its numbers must fit into a `u32`,
and what is written behind the block type must start with them: the extra bytes of the body
and of the `else` branch stand in between. From `2 ^ 32` extra bytes on the offset wraps
around, and the record is looked for at another place, among all the bytes `extras`. -/
structure Control.Whole (k : Control) (extras : List UInt8) : Prop where
  body : k.index + 1 < 2 ^ 32
  else_ : ∀ els, k.kind = .ifElse els → k.elseIndex < 2 ^ 32
  near : k.offset < 2 ^ 32 → k.record.words <+: k.written
  far : 2 ^ 32 ≤ k.offset → k.record.bytes <+: extras.drop (k.offset % 2 ^ 32)

theorem Control.isControl_opcode (k : Control) : IsControl k.opcode := by
  obtain ⟨kind, _, _, _, _⟩ := k
  rcases kind with _ | _ | _
  · rename_i isLoop
    cases isLoop
    · exact .inl rfl
    · exact .inr (.inl rfl)
  · exact .inr (.inr rfl)
  · exact .inr (.inr rfl)

theorem Control.record_bytes (k : Control) :
    k.record.bytes = blockTypeBytes k.type ++ k.record.words := by
  simp [ControlRecord.bytes, Control.record, blockTypeBytes]

theorem Control.isSome_else_iff (k : Control) :
    k.record.else_.isSome = decide (k.opcode = Opcode.ifOp) := by
  obtain ⟨kind, _, _, _, _⟩ := k
  rcases kind with _ | _ | _
  · rename_i isLoop
    cases isLoop <;> rfl
  · rfl
  · rfl

theorem Control.fits_iff (k : Control) :
    k.record.Fits ↔ k.index + 1 < 2 ^ 32 ∧ ∀ els, k.kind = .ifElse els → k.elseIndex < 2 ^ 32 := by
  constructor
  · rintro ⟨-, hbody, helse⟩
    exact ⟨hbody, fun els h => helse _ (by simp [record, h])⟩
  · rintro ⟨hbody, helse⟩
    refine ⟨?_, hbody, fun x hx => ?_⟩
    · cases h : k.type <;> simp [record, h]
    · rcases hkind : k.kind with _ | _ | els
      · simp [record, hkind] at hx
      · obtain rfl : 0 = x := by simpa [record, hkind] using hx
        decide
      · obtain rfl : k.elseIndex = x := by simpa [record, hkind] using hx
        exact helse els hkind

theorem Control.length_words_le (k : Control) : k.record.words.length ≤ k.written.length := by
  rcases hkind : k.kind with _ | _ | els
  all_goals
    simp [record, written, ControlRecord.words, hkind, le32]
    try omega

private theorem prefix_append_iff {α : Type*} {xs ys zs : List α} (h : xs.length ≤ ys.length) :
    xs <+: ys ++ zs ↔ xs <+: ys :=
  ⟨fun hp => List.prefix_of_prefix_length_le hp (List.prefix_append _ _) h,
    fun hp => hp.trans (List.prefix_append _ _)⟩

theorem Control.getElem?_index {is : Instrs} {k : Control} (hk : k ∈ is.controls 1 1) :
    (Expr.ofInstrs is).instructions[k.index]? = some ⟨k.opcode, UInt32.ofNat k.offset⟩ := by
  obtain ⟨⟨fs, fs', hflat, hidx⟩, -⟩ := Instrs.within_of_mem_controls hk
  rw [← hidx, Expr.ofInstrs, hflat, Nat.add_comm]
  simp

theorem Control.readControl_iff {is : Instrs} {k : Control} (hk : k ∈ is.controls 1 1) :
    (Expr.ofInstrs is).readControl k.index = some k.record ↔ k.Whole (Expr.ofInstrs is).extras := by
  obtain ⟨-, ⟨ps, ps', hpayload, hoff⟩⟩ := Instrs.within_of_mem_controls hk
  have hextra : (UInt32.ofNat k.offset).toNat = k.offset % 2 ^ 32 := by simp
  have hrec : (Expr.ofInstrs is).readControl k.index = some k.record ↔
      k.record.Fits ∧ k.record.bytes <+: (Expr.ofInstrs is).extras.drop (k.offset % 2 ^ 32) := by
    rw [Expr.readControl, getElem?_index hk, Option.bind_eq_bind, Option.bind_some,
      readRecord_eq_some, hextra, and_iff_right k.isSome_else_iff]
  rw [hrec, k.fits_iff]
  have hnear : k.offset < 2 ^ 32 →
      (k.record.bytes <+: (Expr.ofInstrs is).extras.drop (k.offset % 2 ^ 32) ↔
        k.record.words <+: k.written) := by
    intro hlt
    rw [Nat.mod_eq_of_lt hlt, ← hoff, Expr.ofInstrs, hpayload, Nat.add_comm, List.drop_succ_cons,
      List.append_assoc, List.drop_left, k.record_bytes, List.append_assoc,
      List.prefix_append_right_inj, prefix_append_iff k.length_words_le]
  constructor
  · rintro ⟨⟨hbody, helse⟩, hp⟩
    exact ⟨hbody, helse, fun hlt => (hnear hlt).mp hp, fun _ => hp⟩
  · rintro ⟨hbody, helse, hn, hf⟩
    refine ⟨⟨hbody, helse⟩, ?_⟩
    rcases Nat.lt_or_ge k.offset (2 ^ 32) with hlt | hge
    · exact (hnear hlt).mpr (hn hlt)
    · exact hf hge

theorem controlsReadBack_iff {is : Instrs} {b : List UInt8} (he : is.Encodes b) :
    ControlsReadBack is (Expr.ofInstrs is) ↔
      ∀ k ∈ is.controls 1 1, k.Whole (Expr.ofInstrs is).extras := by
  constructor
  · intro h k hk
    obtain ⟨k', hk', hidx', hread⟩ := h _ _ (Control.getElem?_index hk) k.isControl_opcode
    obtain rfl := Instrs.eq_of_mem_controls hk' hk hidx'
    exact (Control.readControl_iff hk).mp hread
  · intro h i inst hget hc
    -- neither the sentinel nor the `end` of the expression is a control instruction
    obtain ⟨k, hk, hidx⟩ : ∃ k ∈ is.controls 1 1, k.index = i := by
      cases i with
      | zero =>
        obtain rfl : ({} : Instruction) = inst := by simpa [Expr.ofInstrs] using hget
        exact absurd hc (by decide)
      | succ i =>
        rcases getElem?_append_cons (by simpa [Expr.ofInstrs] using hget) with h | rfl | ⟨m, -, h⟩
        · obtain ⟨k, hk, hidx⟩ := Instrs.exists_control he (p := 1) h hc
          exact ⟨k, hk, by omega⟩
        · exact absurd hc (by decide)
        · simp at h
    exact ⟨k, hk, hidx, hidx ▸ (Control.readControl_iff hk).mpr (h k hk)⟩

/-- **Reading control instructions back.** On the encoding of an instruction sequence the
expression reader returns an expression all of whose control instructions can be read back,
if and only if the record of every control instruction of the sequence comes out whole. -/
theorem binReadExpr_readBack_iff {is : Instrs} {bs : List UInt8} (he : Encoding.expr is bs)
    {c : BinReadCtx} {r : List UInt8} (hrest : c.rest = bs ++ r) :
    (∃ r, Outcome.Returns (fun fuel => binReadExpr fuel c) r ∧ ControlsReadBack is r.value) ↔
      ∀ k ∈ is.controls 1 1, k.Whole (Expr.ofInstrs is).extras := by
  have hret := binReadExpr_encodes he hrest
  obtain ⟨b, hb, -⟩ := he
  rw [← controlsReadBack_iff hb]
  constructor
  · rintro ⟨r, hr, h⟩
    obtain rfl := Outcome.Returns.unique (binReadExpr_stable c) hr hret
    exact h
  · intro h
    exact ⟨_, hret, h⟩

/-- `loop (br 0) end`: the body has no extra bytes. -/
def loopAroundBranch : Instrs := .block true none (.plain (.index 0x0C 0) .nil) .nil

theorem binReadExpr_readBack_loop :
    ∃ r, Outcome.Returns
        (fun fuel => binReadExpr fuel { data := [0x03, 0x40, 0x0C, 0x00, 0x0B, 0x0B] }) r ∧
      ControlsReadBack loopAroundBranch r.value := by
  have hbr : PlainInstr.Encodes (.index 0x0C 0) [0x0C, 0x00] :=
    .index (by decide) ⟨.last (b := 0x00) (by decide), by decide, by decide⟩
  have henc : Encoding.expr loopAroundBranch [0x03, 0x40, 0x0C, 0x00, 0x0B, 0x0B] :=
    ⟨_, .block (t := 0x40) .none (.plain hbr .nil) .nil, rfl⟩
  refine (binReadExpr_readBack_iff henc (r := []) rfl).mpr fun k hk => ?_
  obtain rfl : k = ⟨.block true, none, .plain (.index 0x0C 0) .nil, 1, 1⟩ := by
    simpa [loopAroundBranch, Instrs.controls] using hk
  exact ⟨by decide, by simp, fun _ => by decide, fun h => absurd h (by decide)⟩

/-- `block (i64.const 0) drop end`: the constant stands in the extra bytes of the body. -/
def blockAroundConst : Instrs :=
  .block false none (.plain (.i64Const 0) (.plain (.nullary 0x1A) .nil)) .nil

/-- The index of the body of the block, two, is read back as zero. -/
theorem binReadExpr_not_readBack :
    ¬∀ (is : Instrs) (bs : List UInt8) (c : BinReadCtx) (rest : List UInt8),
      Encoding.expr is bs → c.rest = bs ++ rest →
      ∃ r, Outcome.Returns (fun fuel => binReadExpr fuel c) r ∧ ControlsReadBack is r.value := by
  intro h
  have hconst : PlainInstr.Encodes (.i64Const 0) [0x42, 0x00] :=
    .i64Const ⟨.pos (b := 0x00) (by decide), by decide, by decide, by decide⟩
  have hdrop : PlainInstr.Encodes (.nullary 0x1A) [0x1A] := .nullary (by decide)
  have henc : Encoding.expr blockAroundConst [0x02, 0x40, 0x42, 0x00, 0x1A, 0x0B, 0x0B] :=
    ⟨_, .block (t := 0x40) .none (.plain hconst (.plain hdrop .nil)) .nil, rfl⟩
  have hrest : BinReadCtx.rest { data := [0x02, 0x40, 0x42, 0x00, 0x1A, 0x0B, 0x0B] } =
      [0x02, 0x40, 0x42, 0x00, 0x1A, 0x0B, 0x0B] ++ [] := rfl
  obtain ⟨r, hr, hread⟩ := h _ _ _ _ henc hrest
  obtain rfl := Outcome.Returns.unique (binReadExpr_stable _) hr (binReadExpr_encodes henc hrest)
  obtain ⟨k, hk, -, hk'⟩ := hread 1 ⟨0x02, 1⟩ (by decide) (.inl rfl)
  obtain rfl : k =
      ⟨.block false, none, .plain (.i64Const 0) (.plain (.nullary 0x1A) .nil), 1, 1⟩ := by
    simpa [blockAroundConst, Instrs.controls] using hk
  revert hk'
  decide

end Wasim
