import Mathlib.Algebra.Ring.Nat
import Mathlib.Tactic.Common

/-!
# Token kinds and keywords

The kinds of tokens, and `wasim_text_keywords.odin`: the generated table of keywords and the
perfect hash that finds the index of one. Texts are lists of bytes; a keyword is ASCII. The
kind of a keyword is its index in the table, counted from `Keywords_Begin`.
-/

namespace Wasim

inductive TexTokenKind where
  | invalid
  | eof
  | parenOpen
  | parenClose
  | integerSigned
  | integerUnsigned
  | float
  | string
  | identifier
  | alignEqualNatural
  | offsetEqualNatural
  | keyword (index : ℕ)
  deriving DecidableEq, Repr

namespace TexTokenKind

abbrev i32 : TexTokenKind := .keyword 0

abbrev i64 : TexTokenKind := .keyword 1

abbrev f32 : TexTokenKind := .keyword 2

abbrev f64 : TexTokenKind := .keyword 3

abbrev type : TexTokenKind := .keyword 179

abbrev func : TexTokenKind := .keyword 180

abbrev param : TexTokenKind := .keyword 182

abbrev result : TexTokenKind := .keyword 183

abbrev local_ : TexTokenKind := .keyword 184

abbrev module : TexTokenKind := .keyword 193

end TexTokenKind

/-- The bytes of an ASCII text. -/
def ascii (s : String) : List UInt8 := s.toList.map fun c => UInt8.ofNat c.toNat

/-- `NG` -/
def hashModulus : ℕ := 297

/-- `NS`, the length of the longest keyword. -/
def maxKeywordLength : ℕ := 19

def texTokPerfectHash : List ℕ :=
  [0, 102, 2, 0, 62, 54, 269, 0, 0, 274, 112, 0, 187, 213, 0, 0, 67, 163, 0, 0, 287, 0, 0, 52,
    195, 0, 98, 0, 260, 141, 233, 0, 224, 0, 0, 0, 151, 0, 12, 0, 27, 0, 0, 0, 0, 0, 206, 0, 261,
    0, 0, 0, 0, 0, 0, 25, 6, 156, 259, 0, 0, 118, 223, 0, 285, 154, 107, 0, 246, 0, 211, 0, 268,
    189, 29, 202, 244, 0, 153, 0, 0, 253, 35, 110, 39, 104, 0, 153, 0, 0, 156, 99, 0, 89, 190,
    256, 0, 244, 44, 134, 0, 0, 0, 0, 0, 141, 138, 34, 16, 150, 1, 251, 193, 0, 0, 33, 247, 109,
    0, 0, 78, 113, 0, 0, 191, 234, 55, 5, 183, 0, 100, 215, 123, 0, 163, 0, 31, 66, 24, 0, 13, 0,
    201, 0, 42, 21, 87, 155, 200, 227, 47, 0, 267, 4, 0, 100, 0, 0, 289, 63, 149, 134, 0, 0, 0,
    191, 286, 0, 69, 0, 18, 0, 0, 284, 0, 131, 83, 264, 187, 223, 164, 247, 120, 85, 152, 0, 0,
    269, 141, 293, 290, 25, 262, 44, 173, 54, 245, 97, 152, 0, 133, 0, 0, 135, 137, 37, 123, 32,
    0, 82, 37, 228, 0, 23, 8, 0, 145, 83, 199, 0, 250, 0, 81, 174, 99, 219, 143, 189, 0, 136, 0,
    190, 166, 200, 196, 75, 163, 34, 0, 128, 0, 242, 92, 0, 178, 45, 110, 245, 182, 143, 113, 55,
    67, 27, 0, 41, 93, 203, 178, 144, 0, 19, 146, 258, 0, 186, 199, 181, 237, 0, 0, 293, 0, 0, 96,
    85, 0, 176, 16, 0, 94, 0, 17, 0, 118, 145, 213, 0, 220, 4, 37, 0, 219, 0, 73, 269, 120]

def texTokPerfectHashKey : List String :=
  ["i32", "i64", "f32", "f64", "i32.const", "i64.const", "f32.const", "f64.const", "funcref",
    "mut", "nop", "unreachable", "drop", "block", "loop", "end", "br", "br_if", "br_table",
    "return", "if", "then", "else", "select", "call", "call_indirect", "local.get", "local.set",
    "local.tee", "global.get", "global.set", "i32.load", "i64.load", "f32.load", "f64.load",
    "i32.store", "i64.store", "f32.store", "f64.store", "i32.load8_s", "i32.load8_u",
    "i32.load16_s", "i32.load16_u", "i64.load8_s", "i64.load8_u", "i64.load16_s", "i64.load16_u",
    "i64.load32_s", "i64.load32_u", "i32.store8", "i32.store16", "i64.store8", "i64.store16",
    "i64.store32", "i32.clz", "i32.ctz", "i32.popcnt", "i64.clz", "i64.ctz", "i64.popcnt",
    "f32.neg", "f32.abs", "f32.sqrt", "f32.ceil", "f32.floor", "f32.trunc", "f32.nearest",
    "f64.neg", "f64.abs", "f64.sqrt", "f64.ceil", "f64.floor", "f64.trunc", "f64.nearest",
    "i32.add", "i32.sub", "i32.mul", "i32.div_s", "i32.div_u", "i32.rem_s", "i32.rem_u",
    "i32.and", "i32.or", "i32.xor", "i32.shl", "i32.shr_s", "i32.shr_u", "i32.rotl", "i32.rotr",
    "i64.add", "i64.sub", "i64.mul", "i64.div_s", "i64.div_u", "i64.rem_s", "i64.rem_u",
    "i64.and", "i64.or", "i64.xor", "i64.shl", "i64.shr_s", "i64.shr_u", "i64.rotl", "i64.rotr",
    "f32.add", "f32.sub", "f32.mul", "f32.div", "f32.min", "f32.max", "f32.copysign", "f64.add",
    "f64.sub", "f64.mul", "f64.div", "f64.min", "f64.max", "f64.copysign", "i32.eqz", "i64.eqz",
    "i32.eq", "i32.ne", "i32.lt_s", "i32.lt_u", "i32.le_s", "i32.le_u", "i32.gt_s", "i32.gt_u",
    "i32.ge_s", "i32.ge_u", "i64.eq", "i64.ne", "i64.lt_s", "i64.lt_u", "i64.le_s", "i64.le_u",
    "i64.gt_s", "i64.gt_u", "i64.ge_s", "i64.ge_u", "f32.eq", "f32.ne", "f32.lt", "f32.le",
    "f32.gt", "f32.ge", "f64.eq", "f64.ne", "f64.lt", "f64.le", "f64.gt", "f64.ge",
    "i32.wrap_i64", "i64.extend_i32_s", "i64.extend_i32_u", "f32.demote_f64", "f64.promote_f32",
    "i32.trunc_f32_s", "i32.trunc_f32_u", "i32.trunc_f64_s", "i32.trunc_f64_u", "i64.trunc_f32_s",
    "i64.trunc_f32_u", "i64.trunc_f64_s", "i64.trunc_f64_u", "f32.convert_i32_s",
    "f32.convert_i32_u", "f32.convert_i64_s", "f32.convert_i64_u", "f64.convert_i32_s",
    "f64.convert_i32_u", "f64.convert_i64_s", "f64.convert_i64_u", "f32.reinterpret_i32",
    "f64.reinterpret_i64", "i32.reinterpret_f32", "i64.reinterpret_f64", "memory.size",
    "memory.grow", "type", "func", "start", "param", "result", "local", "global", "table",
    "memory", "elem", "data", "offset", "import", "export", "module"]

def texTokPerfectHashS1 : List UInt8 := ascii "YcDM2XZP6VF8FNVf5JB"

def texTokPerfectHashS2 : List UInt8 := ascii "jR2mvGtQtUO4PCUuUuj"

/-- The weighted sum of the bytes of a key. -/
def weightedSum (weights key : List UInt8) : ℕ :=
  (List.zipWith (fun w c => w.toNat * c.toNat) weights key).sum

/-- The index of a keyword; `none` is the source's `-1`. -/
def texTokPerfectHashProc (key : List UInt8) : Option ℕ :=
  if key.length ≤ maxKeywordLength then
    let f1 := weightedSum texTokPerfectHashS1 key
    let f2 := weightedSum texTokPerfectHashS2 key
    let index := (texTokPerfectHash.getD (f1 % hashModulus) 0 +
      texTokPerfectHash.getD (f2 % hashModulus) 0) % hashModulus
    match texTokPerfectHashKey[index]? with
    | some keyword => if key = ascii keyword then some index else none
    | none => none
  else none

end Wasim
