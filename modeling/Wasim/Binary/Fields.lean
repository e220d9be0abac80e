import Wasim.Binary.LaneAgree

/-!
# The fields of a module

Every section but the code section is stored in the field of its kind (`Module.field`), and a field
holds what was assigned to it last. The codes are filled in place by place.
-/

namespace Wasim

/-- The field of the module for a kind of section. -/
def Module.field (m : Module) : BinSectionKind → FieldValue
  | .custom => .nothing
  | .type => .types m.types
  | .import => .imps m.imps
  | .function => .functions m.functions
  | .table => .tables m.tables
  | .memory => .memory m.memory
  | .global => .globals m.globals
  | .export => .exports m.exports
  | .start => .start m.start
  | .element => .elements m.elements
  | .code => .nothing
  | .data => .datas m.datas

/-- A module is its version, its fields and its codes. -/
theorem Module.eq_of_fields {m m' : Module} (hversion : m.version = m'.version)
    (hfield : ∀ kind ≠ .code, m.field kind = m'.field kind) (hcodes : m.codes = m'.codes) :
    m = m' := by
  have htypes := FieldValue.types.inj (hfield .type (by decide))
  have himps := FieldValue.imps.inj (hfield .import (by decide))
  have hfunctions := FieldValue.functions.inj (hfield .function (by decide))
  have htables := FieldValue.tables.inj (hfield .table (by decide))
  have hmemory := FieldValue.memory.inj (hfield .memory (by decide))
  have hglobals := FieldValue.globals.inj (hfield .global (by decide))
  have hexports := FieldValue.exports.inj (hfield .export (by decide))
  have hstart := FieldValue.start.inj (hfield .start (by decide))
  have helements := FieldValue.elements.inj (hfield .element (by decide))
  have hdatas := FieldValue.datas.inj (hfield .data (by decide))
  obtain ⟨⟩ := m
  obtain ⟨⟩ := m'
  simp_all only

/-- A field holds a content of its kind; the code section has none. -/
theorem Module.kind_field {m : Module} {kind : BinSectionKind} (h : kind ≠ .code) :
    (m.field kind).kind = kind := by
  cases kind <;> first | rfl | exact absurd rfl h

theorem Module.field_eq_of_kind {m : Module} {a b : BinSectionKind}
    (h : (m.field a).kind = (m.field b).kind) : m.field a = m.field b := by
  cases a <;> cases b <;> first | rfl | cases h

theorem Module.field_eq_nothing_iff {m : Module} {kind : BinSectionKind} :
    m.field kind = .nothing ↔ kind = .custom ∨ kind = .code := by
  cases kind <;> simp [Module.field]

theorem Module.field_assign (m : Module) (v : FieldValue) : (m.assign v).field v.kind = v := by
  cases v <;> rfl

theorem Module.field_assign_of_ne (m : Module) {v : FieldValue} {kind : BinSectionKind}
    (h : kind ≠ v.kind) : (m.assign v).field kind = m.field kind := by
  cases v <;> cases kind <;> first | rfl | exact absurd rfl h

theorem Module.field_withCodes (m : Module) (kind : BinSectionKind) (codes : List Code) :
    { m with codes := codes }.field kind = m.field kind := by
  cases kind <;> rfl

/-- What was assigned to a field stays there, if nothing else is assigned to it. -/
theorem Module.field_foldl {ι : Type} (f : ι → FieldValue) {l : List ι} {i : ι} (hi : i ∈ l)
    (hagree : ∀ j ∈ l, (f j).kind = (f i).kind → f j = f i) (m : Module) :
    (l.foldl (fun m j => m.assign (f j)) m).field (f i).kind = f i := by
  induction l using List.reverseRecOn with
  | nil => cases hi
  | append_singleton l x ih =>
    rw [List.foldl_append, List.foldl_cons, List.foldl_nil]
    by_cases hkind : (f x).kind = (f i).kind
    · rw [hagree x (by simp) hkind, Module.field_assign]
    · have hmem : i ∈ l := by
        rcases List.mem_append.mp hi with h | h
        · exact h
        · rw [List.mem_singleton.mp h] at hkind
          exact absurd rfl hkind
      rw [Module.field_assign_of_ne _ (Ne.symm hkind), ih hmem fun j hj => hagree j (by simp [hj])]

section Foldl

variable {ι : Type} (f : ι → FieldValue) (l : List ι) (m : Module)

theorem foldl_assign_version : (l.foldl (fun m i => m.assign (f i)) m).version = m.version := by
  induction l generalizing m with
  | nil => rfl
  | cons i l ih =>
    rw [List.foldl_cons, ih]
    cases f i <;> rfl

theorem foldl_assign_codes : (l.foldl (fun m i => m.assign (f i)) m).codes = m.codes := by
  induction l generalizing m with
  | nil => rfl
  | cons i l ih =>
    rw [List.foldl_cons, ih]
    cases f i <;> rfl

variable {f l m}

theorem Module.field_foldl_of_ne {kind : BinSectionKind} (h : ∀ i ∈ l, kind ≠ (f i).kind) :
    (l.foldl (fun m i => m.assign (f i)) m).field kind = m.field kind := by
  induction l generalizing m with
  | nil => rfl
  | cons i l ih =>
    obtain ⟨hi, hl⟩ := List.forall_mem_cons.mp h
    rw [List.foldl_cons, ih hl, Module.field_assign_of_ne _ hi]

end Foldl

/-- A field holds something that was assigned to it, if anything was. -/
theorem Module.field_foldl_cases {ι : Type} (f : ι → FieldValue) (l : List ι) (m : Module)
    (kind : BinSectionKind) :
    (∃ i ∈ l, (f i).kind = kind ∧ (l.foldl (fun m i => m.assign (f i)) m).field kind = f i) ∨
      (∀ i ∈ l, (f i).kind ≠ kind) ∧
        (l.foldl (fun m i => m.assign (f i)) m).field kind = m.field kind := by
  induction l using List.reverseRecOn with
  | nil => exact Or.inr ⟨fun _ hi => absurd hi List.not_mem_nil, rfl⟩
  | append_singleton l x ih =>
    rw [List.foldl_append, List.foldl_cons, List.foldl_nil]
    by_cases hx : (f x).kind = kind
    · exact Or.inl ⟨x, by simp, hx, hx ▸ Module.field_assign _ _⟩
    · rw [Module.field_assign_of_ne _ (Ne.symm hx)]
      rcases ih with ⟨i, hi, hkind, hfield⟩ | ⟨hno, hfield⟩
      · exact Or.inl ⟨i, List.mem_append_left _ hi, hkind, hfield⟩
      · refine Or.inr ⟨fun i hi => ?_, hfield⟩
        rcases List.mem_append.mp hi with hi | hi
        · exact hno i hi
        · exact List.mem_singleton.mp hi ▸ hx

/-- A module can be given any fields. -/
theorem Module.exists_fields (m : Module) (codes : List Code) (v : BinSectionKind → FieldValue)
    (hv : ∀ kind ≠ .code, (v kind).kind = kind) :
    ∃ m' : Module, m'.version = m.version ∧ m'.codes = codes ∧
      ∀ kind ≠ .code, m'.field kind = v kind := by
  set kinds : List BinSectionKind := [.custom, .type, .import, .function, .table, .memory,
    .global, .export, .start, .element, .data]
  refine ⟨{ kinds.foldl (fun m kind => m.assign (v kind)) m with codes := codes },
    foldl_assign_version v kinds m, rfl, fun kind hkind => ?_⟩
  have hcode : .code ∉ kinds := by decide
  have hmem : kind ∈ kinds := by
    cases kind <;> first | exact absurd rfl hkind | decide
  have hfield := Module.field_foldl v hmem (fun kind' hkind' hsame => ?_) m
  · rw [hv kind hkind] at hfield
    rw [Module.field_withCodes, hfield]
  · rw [hv kind hkind, hv kind' fun h => hcode (h ▸ hkind')] at hsame
    rw [hsame]

/-! ### The codes -/

theorem foldl_codes (g : ℕ → Code) (l : List ℕ) (m : Module) :
    l.foldl (fun m i => { m with codes := m.codes.set i (g i) }) m =
      { m with codes := l.foldl (fun codes i => codes.set i (g i)) m.codes } := by
  induction l generalizing m with
  | nil => rfl
  | cons i l ih => rw [List.foldl_cons, ih, List.foldl_cons]

theorem foldl_set_length (g : ℕ → Code) (l : List ℕ) (codes : List Code) :
    (l.foldl (fun codes i => codes.set i (g i)) codes).length = codes.length := by
  induction l generalizing codes with
  | nil => rfl
  | cons i l ih => rw [List.foldl_cons, ih, List.length_set]

/-- A place that is filled holds its code. -/
theorem foldl_set_getElem? (g : ℕ → Code) {l : List ℕ} {j : ℕ} (hj : j ∈ l)
    {codes : List Code} (hlt : j < codes.length) :
    (l.foldl (fun codes i => codes.set i (g i)) codes)[j]? = some (g j) := by
  induction l using List.reverseRecOn with
  | nil => cases hj
  | append_singleton l i ih =>
    rw [List.foldl_append, List.foldl_cons, List.foldl_nil]
    rcases eq_or_ne i j with rfl | hne
    · rw [List.getElem?_set_self (by rwa [foldl_set_length])]
    · rw [List.getElem?_set_ne hne]
      rcases List.mem_append.mp hj with hj | hj
      · exact ih hj
      · exact absurd (List.mem_singleton.mp hj).symm hne

end Wasim
