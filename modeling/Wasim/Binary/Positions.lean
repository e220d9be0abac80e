import Wasim.Binary.EntryPoint
import Wasim.Binary.Ranges

/-!
# File positions

A context is true to the file when the byte `i` of its data is the byte `base + i` of the file
(`BinReadCtx.TrueTo`). The scanner takes the position of a section in front of its kind and
its size, and the position of a function body in front of its size, but the data of both
starts behind them. So the base of a scope is too small by the length of the header, and the
context is only true to the file when the bytes at the header are those of the payload
(`RepeatsHeader`), as for an empty payload.

When that is so for everything the lanes read (`HeadersRepeat`), the positions are true in
every state of every run (`binRead_positions_true`). It fails for a type section with one byte
(`binRead_positions_false`).
-/

namespace Wasim

open Lanes ReadShared BinReadCtx

variable {n : ℕ}

/-- Byte `i` of the data is byte `base + i` of the file. -/
def BinReadCtx.TrueTo (file : List UInt8) (c : BinReadCtx) : Prop :=
  ∀ i < c.data.length, file[c.base + i]? = c.data[i]?

theorem BinReadCtx.trueTo_iff {file : List UInt8} {c : BinReadCtx} :
    c.TrueTo file ↔ c.data <+: file.drop c.base := by
  simp only [TrueTo, List.prefix_iff_getElem?, List.getElem?_drop]
  refine forall_congr' fun i => forall_congr' fun hi => ?_
  rw [List.getElem?_eq_getElem hi]

/-! ### Values one after the other -/

section Place

variable {α : Type} (bytes : α → List UInt8)

/-- The values with the positions they start at, when the first is at `pos`. -/
def placeAt : ℕ → List α → List (ℕ × α)
  | _, [] => []
  | pos, a :: as => (pos, a) :: placeAt (pos + (bytes a).length) as

@[simp]
theorem placeAt_map_snd (pos : ℕ) (as : List α) : (placeAt bytes pos as).map Prod.snd = as := by
  induction as generalizing pos with
  | nil => rfl
  | cons a as ih => simp [placeAt, ih]

variable {bytes}

theorem mem_of_mem_placeAt {pos : ℕ} {as : List α} {q : ℕ × α}
    (hq : q ∈ placeAt bytes pos as) : q.2 ∈ as := by
  rw [← placeAt_map_snd bytes pos as]
  exact List.mem_map_of_mem hq

/-- Every value stands at its position. -/
theorem prefix_of_mem_placeAt {file : List UInt8} {pos : ℕ} {as : List α}
    (h : as.flatMap bytes <+: file.drop pos) {q : ℕ × α} (hq : q ∈ placeAt bytes pos as) :
    bytes q.2 <+: file.drop q.1 := by
  induction as generalizing pos with
  | nil => cases hq
  | cons a as ih =>
    rw [List.flatMap_cons] at h
    rcases List.mem_cons.mp hq with rfl | hq
    · exact (List.prefix_append _ _).trans h
    · refine ih ?_ hq
      obtain ⟨rest, hrest⟩ := h
      rw [← List.drop_drop, ← hrest, List.append_assoc, List.drop_left]
      exact List.prefix_append _ _

end Place

/-! ### Headers and payloads -/

/-- The bytes of the payload also stand where its header starts. -/
def RepeatsHeader (header payload : List UInt8) : Prop := payload <+: header ++ payload

/-- A section, in its parts. -/
structure SectionFrame where
  kind : UInt8
  size : List UInt8
  payload : List UInt8

def SectionFrame.header (f : SectionFrame) : List UInt8 := f.kind :: f.size

def SectionFrame.bytes (f : SectionFrame) : List UInt8 := f.header ++ f.payload

/-- The kind is known, and `size` encodes the size of the payload. -/
def SectionFrame.Valid (f : SectionFrame) : Prop :=
  f.kind ≤ 11 ∧ Encoding.unsigned 32 f.payload.length f.size

/-- A file with these sections. -/
def FileOf (fs : List SectionFrame) (file : List UInt8) : Prop :=
  (∀ f ∈ fs, f.Valid) ∧
    file = le32 binMagic ++ (le32 binSupportedVersion ++ fs.flatMap SectionFrame.bytes)

/-- A function body with its size in front. -/
structure BodyFrame where
  size : List UInt8
  body : List UInt8

def BodyFrame.bytes (b : BodyFrame) : List UInt8 := b.size ++ b.body

def BodyFrame.Valid (b : BodyFrame) : Prop := Encoding.unsigned 32 b.body.length b.size

/-- A code section that starts with these bodies. -/
def BodiesOf (bs : List BodyFrame) (payload : List UInt8) : Prop :=
  (∀ b ∈ bs, b.Valid) ∧
    ∃ count rest, Encoding.unsigned 32 bs.length count ∧
      payload = count ++ (bs.flatMap BodyFrame.bytes ++ rest)

/-- Everything that is read in a scope of its own repeats its header: every section but the
code sections, the last code section, and the bodies in it. -/
structure HeadersRepeat (file : List UInt8) : Prop where
  sections : ∀ fs, FileOf fs file → ∀ f ∈ fs, f.kind ≠ 10 → RepeatsHeader f.header f.payload
  code : ∀ fs f fs', FileOf (fs ++ f :: fs') file → f.kind = 10 → (∀ g ∈ fs', g.kind ≠ 10) →
    RepeatsHeader f.header f.payload
  bodies : ∀ fs f fs', FileOf (fs ++ f :: fs') file → f.kind = 10 → (∀ g ∈ fs', g.kind ≠ 10) →
    ∀ bs, BodiesOf bs f.payload → ∀ b ∈ bs, RepeatsHeader b.size b.body

/-! ### Frames are unique -/

/-- Where a size and the payload behind it end is settled by the bytes. -/
theorem sized_unique {size size' payload payload' r r' : List UInt8}
    (h : Encoding.unsigned 32 payload.length size)
    (h' : Encoding.unsigned 32 payload'.length size')
    (heq : size ++ (payload ++ r) = size' ++ (payload' ++ r')) :
    size = size' ∧ payload = payload' ∧ r = r' := by
  obtain ⟨rfl, hlen⟩ := h.1.prefix_unique h'.1 heq
  obtain ⟨hpayload, hr⟩ := List.append_inj (List.append_cancel_left heq) hlen
  exact ⟨rfl, hpayload, hr⟩

theorem SectionFrame.unique {fs gs : List SectionFrame} (hfs : ∀ f ∈ fs, f.Valid)
    (hgs : ∀ g ∈ gs, g.Valid)
    (h : fs.flatMap SectionFrame.bytes = gs.flatMap SectionFrame.bytes) : fs = gs := by
  induction fs generalizing gs with
  | nil =>
    rcases gs with _ | ⟨g, gs⟩
    · rfl
    · simp [SectionFrame.bytes, SectionFrame.header] at h
  | cons f fs ih =>
    rcases gs with _ | ⟨g, gs⟩
    · simp [SectionFrame.bytes, SectionFrame.header] at h
    · obtain ⟨hf, hfs'⟩ := List.forall_mem_cons.mp hfs
      obtain ⟨hg, hgs'⟩ := List.forall_mem_cons.mp hgs
      obtain ⟨kind, size, payload⟩ := f
      obtain ⟨kind', size', payload'⟩ := g
      simp only [List.flatMap_cons, SectionFrame.bytes, SectionFrame.header, List.cons_append,
        List.append_assoc] at h
      obtain ⟨rfl, htail⟩ := List.cons.inj h
      obtain ⟨rfl, rfl, hrest⟩ := sized_unique hf.2 hg.2 htail
      rw [ih hfs' hgs' hrest]

/-- The sections of a file are unique. -/
theorem FileOf.unique {fs gs : List SectionFrame} {file : List UInt8} (h : FileOf fs file)
    (h' : FileOf gs file) : fs = gs := by
  refine SectionFrame.unique h.1 h'.1 ?_
  have heq := h.2.symm.trans h'.2
  exact List.append_cancel_left (List.append_cancel_left heq)

theorem BodyFrame.unique {as bs : List BodyFrame} (has : ∀ a ∈ as, a.Valid)
    (hbs : ∀ b ∈ bs, b.Valid) (hlen : as.length = bs.length) {r r' : List UInt8}
    (h : as.flatMap BodyFrame.bytes ++ r = bs.flatMap BodyFrame.bytes ++ r') :
    as = bs ∧ r = r' := by
  induction as generalizing bs with
  | nil =>
    obtain rfl := List.length_eq_zero_iff.mp hlen.symm
    exact ⟨rfl, h⟩
  | cons a as ih =>
    rcases bs with _ | ⟨b, bs⟩
    · cases hlen
    · obtain ⟨ha, has'⟩ := List.forall_mem_cons.mp has
      obtain ⟨hb, hbs'⟩ := List.forall_mem_cons.mp hbs
      obtain ⟨size, body⟩ := a
      obtain ⟨size', body'⟩ := b
      simp only [List.flatMap_cons, BodyFrame.bytes, List.append_assoc] at h
      obtain ⟨rfl, rfl, hrest⟩ := sized_unique ha hb h
      obtain ⟨rfl, rfl⟩ := ih has' hbs' (Nat.succ.inj hlen) hrest
      exact ⟨rfl, rfl⟩

/-- The bodies of a code section are unique. -/
theorem BodiesOf.unique {as bs : List BodyFrame} {payload : List UInt8} (h : BodiesOf as payload)
    (h' : BodiesOf bs payload) : as = bs := by
  obtain ⟨has, count, rest, hcount, hpayload⟩ := h
  obtain ⟨hbs, count', rest', hcount', hpayload'⟩ := h'
  rw [hpayload] at hpayload'
  obtain ⟨rfl, hlen⟩ := hcount.1.prefix_unique hcount'.1 hpayload'
  exact (BodyFrame.unique has hbs hlen (List.append_cancel_left hpayload')).1

/-! ### The scanner -/

/-- The section that the scanner makes of a frame. -/
def frameSection (q : ℕ × SectionFrame) : BinSection := ⟨.ofByte q.2.kind, q.1, q.2.payload⟩

theorem exists_section {fs : List SectionFrame} (pos : ℕ) {f : SectionFrame} (hf : f ∈ fs) :
    ∃ sec ∈ (placeAt SectionFrame.bytes pos fs).map frameSection,
      sec.kind = .ofByte f.kind ∧ sec.data = f.payload := by
  rw [← placeAt_map_snd SectionFrame.bytes pos fs] at hf
  obtain ⟨q, hq, rfl⟩ := List.mem_map.mp hf
  exact ⟨frameSection q, List.mem_map_of_mem hq, rfl, rfl⟩

theorem exists_frame {fs : List SectionFrame} {pos : ℕ} {sec : BinSection}
    (hsec : sec ∈ (placeAt SectionFrame.bytes pos fs).map frameSection) :
    ∃ f ∈ fs, sec.kind = .ofByte f.kind ∧ sec.data = f.payload := by
  obtain ⟨q, hq, rfl⟩ := List.mem_map.mp hsec
  exact ⟨q.2, mem_of_mem_placeAt hq, rfl, rfl⟩

/-- A turn of the scanner finds a frame, and puts the section where the frame starts. -/
theorem binScanSection_frame {c : BinReadCtx} (h : (binScanSection c).ok = true) :
    ∃ (f : SectionFrame) (r : List UInt8), f.Valid ∧ c.rest = f.bytes ++ r ∧
      binScanSection c = ⟨frameSection (c.curr, f), true, c.advance f.bytes.length⟩ := by
  obtain ⟨s, b, r, hrest, henc⟩ := binScanSection_accepts h
  have hread := binScanSection_reads henc hrest
  obtain ⟨hkind, size, hsize, rfl⟩ := henc
  exact ⟨⟨s.1, size, s.2⟩, r, ⟨hkind, hsize⟩, hrest, hread⟩

theorem binScanSections_frames {c : BinReadCtx} {sections : List BinSection}
    (h : (binScanSections c sections).ok = true) :
    ∃ fs : List SectionFrame, (∀ f ∈ fs, f.Valid) ∧ c.rest = fs.flatMap SectionFrame.bytes ∧
      (binScanSections c sections).value =
        sections ++ (placeAt SectionFrame.bytes c.curr fs).map frameSection := by
  fun_induction binScanSections c sections with
  | case1 c sections hcurr hok ih =>
    obtain ⟨f, r, hf, hrest, hscan⟩ := binScanSection_frame hok
    obtain ⟨fs, hfs, hrest', hvalue⟩ := ih h
    rw [hscan] at hrest' hvalue ⊢
    rw [rest_advance_of_eq hrest] at hrest'
    refine ⟨f :: fs, List.forall_mem_cons.mpr ⟨hf, hfs⟩, ?_, ?_⟩
    · rw [List.flatMap_cons, hrest, hrest']
    · rw [hvalue, placeAt, List.map_cons, List.append_assoc]
      rfl
  | case2 => cases h
  | case3 c sections hcurr =>
    refine ⟨[], by simp, ?_, by simp [placeAt]⟩
    by_contra hne
    exact hcurr ((curr_lt_iff c).mpr hne)

/-- What the header of a file leaves to scan. -/
theorem binScanHeader {c : BinReadCtx}
    (h : ((binScanMagic c).andThen binScanVersion).ok = true) :
    ∃ r, c.rest = le32 binMagic ++ (le32 binSupportedVersion ++ r) ∧
      ((binScanMagic c).andThen binScanVersion).ctx = c.advance 8 := by
  obtain ⟨hmagic, hversion⟩ := (ReadResult.andThen_ok _ _).mp h
  obtain ⟨r, hr⟩ := (binScanMagic_ok_iff _).mp hmagic
  obtain ⟨r', hr'⟩ := (binScanVersion_ok_iff _ _).mp hversion
  have hrest := binScanMagic_rest hr
  rw [hr'] at hrest
  rw [← hrest] at hr
  refine ⟨r', hr, ?_⟩
  have hm : binScanMagic c = ⟨{}, true, c.advance 4⟩ := by
    rw [binScanMagic, binReadU32_reads rfl hr]
    simp [le32]
  have hv := binReadU32_reads rfl hr'
  rw [hm] at hv
  rw [ReadResult.andThen, hm]
  simp only [if_true, binScanVersion, hv]
  simp [le32, binSupportedVersion]

/-- The sections of a file that was scanned, at the positions of their headers. -/
theorem binScanModule_frames {file : List UInt8} {c : BinReadCtx} (hcurr : c.curr = 0)
    (hdata : c.data = file) (h : (binScanModule c).ok = true) :
    ∃ fs, FileOf fs file ∧
      (binScanModule c).value.sections = (placeAt SectionFrame.bytes 8 fs).map frameSection ∧
      (binScanModule c).value.codeSectionIndex =
        codeSectionIndex ((placeAt SectionFrame.bytes 8 fs).map frameSection) := by
  obtain ⟨hheader, hcollect⟩ := (ReadResult.andThen_ok _ _).mp h
  obtain ⟨r, hrest, hctx⟩ := binScanHeader hheader
  have hsections : (binScanSections (c.advance 8) []).ok = true := by
    rw [hctx] at hcollect
    simp only [binScanCollect] at hcollect
    by_contra hne
    rw [if_neg hne] at hcollect
    cases hcollect
  obtain ⟨fs, hfs, hrest', hvalue⟩ := binScanSections_frames hsections
  have hpos : (c.advance 8).curr = 8 := by rw [BinReadCtx.advance, hcurr]
  have hr : (c.advance 8).rest = r := by
    rw [rest_advance, hrest, ← List.append_assoc]
    exact List.drop_left' (by simp [le32])
  rw [hr] at hrest'
  rw [hpos, List.nil_append] at hvalue
  refine ⟨fs, ⟨hfs, ?_⟩, ?_⟩
  · rw [← hrest', ← hrest, BinReadCtx.rest, hcurr, hdata]
    rfl
  · rw [binScanModule, ReadResult.andThen, if_pos hheader, hctx, binScanCollect]
    simp only [hsections, if_true, hvalue, and_self]

/-! ### The code section -/

theorem codeSectionIndex_append (l : List BinSection) (sec : BinSection) :
    codeSectionIndex (l ++ [sec]) =
      if sec.kind = .code then (l.length : ℤ) else codeSectionIndex l := by
  simp [codeSectionIndex, List.zipIdx_append]

/-- The index is that of the last code section. -/
theorem codeSectionIndex_spec {l : List BinSection} (h : 0 ≤ codeSectionIndex l) :
    ∃ l₁ sec l₂, l = l₁ ++ sec :: l₂ ∧ sec.kind = .code ∧ (∀ x ∈ l₂, x.kind ≠ .code) ∧
      codeSectionIndex l = l₁.length := by
  induction l using List.reverseRecOn with
  | nil => simp [codeSectionIndex] at h
  | append_singleton l x ih =>
    rw [codeSectionIndex_append] at h ⊢
    by_cases hx : x.kind = .code
    · exact ⟨l, x, [], rfl, hx, by simp, by rw [if_pos hx]⟩
    · rw [if_neg hx] at h ⊢
      obtain ⟨l₁, sec, l₂, rfl, hsec, hl₂, hidx⟩ := ih h
      refine ⟨l₁, sec, l₂ ++ [x], by simp, hsec, ?_, hidx⟩
      intro y hy
      rcases List.mem_append.mp hy with hy | hy
      · exact hl₂ y hy
      · rw [List.mem_singleton.mp hy]
        exact hx

theorem ofByte_eq_code_iff (b : UInt8) : BinSectionKind.ofByte b = .code ↔ b = 10 := by
  rw [← UInt8.toNat_inj, BinSectionKind.ofByte]
  split <;> simp_all

/-- The code section that is read comes from the last frame of its kind. -/
theorem codeSection_frame {fs : List SectionFrame} {pos : ℕ} {sec : BinSection}
    (h : 0 ≤ codeSectionIndex ((placeAt SectionFrame.bytes pos fs).map frameSection))
    (hsec : ((placeAt SectionFrame.bytes pos fs).map frameSection)[(codeSectionIndex
      ((placeAt SectionFrame.bytes pos fs).map frameSection)).toNat]? = some sec) :
    ∃ q ∈ placeAt SectionFrame.bytes pos fs, sec = frameSection q ∧ q.2.kind = 10 ∧
      ∃ fs₁ fs₂, fs = fs₁ ++ q.2 :: fs₂ ∧ ∀ g ∈ fs₂, g.kind ≠ 10 := by
  obtain ⟨l₁, sec', l₂, hl, hkind, hl₂, hidx⟩ := codeSectionIndex_spec h
  rw [hidx, hl, Int.toNat_natCast, List.getElem?_append_right le_rfl, Nat.sub_self] at hsec
  obtain rfl := Option.some.inj hsec
  obtain ⟨q₁, qs, hqs, rfl, hqs'⟩ := List.map_eq_append_iff.mp hl
  obtain ⟨q, q₂, rfl, rfl, rfl⟩ := List.map_eq_cons_iff.mp hqs'
  have hfs := placeAt_map_snd SectionFrame.bytes pos fs
  rw [hqs, List.map_append, List.map_cons] at hfs
  refine ⟨q, by simp [hqs], rfl, (ofByte_eq_code_iff _).mp hkind, _, _, hfs.symm, ?_⟩
  intro g hg
  obtain ⟨q', hq', rfl⟩ := List.mem_map.mp hg
  exact fun hg10 => hl₂ _ (List.mem_map_of_mem hq') ((ofByte_eq_code_iff _).mpr hg10)

/-- The bodies of a code section, at the positions of their sizes. -/
def bodyCode (q : ℕ × BodyFrame) : BinCode := ⟨q.1, q.2.body⟩

theorem binReadCodeStructure_frame_of_ok {c : BinReadCtx}
    (h : (binReadCodeStructure c).ok = true) :
    ∃ (b : BodyFrame) (r : List UInt8), b.Valid ∧ c.rest = b.bytes ++ r ∧
      binReadCodeStructure c =
        ⟨bodyCode (binReaderAbsolutePos c, b), true, c.advance b.bytes.length⟩ := by
  simp only [binReadCodeStructure] at h ⊢
  split at h
  · rename_i hsize
    obtain ⟨size, r, hrest, hsz, hctx⟩ := binReadU32Leb_accepts hsize
    obtain ⟨body, r', hrest', hlen, hbytes⟩ := binReadBytes_accepts h
    rw [hctx, rest_advance_of_eq hrest] at hrest'
    refine ⟨⟨size, body⟩, r', ?_, ?_, ?_⟩
    · rw [BodyFrame.Valid, hlen]
      exact hsz
    · rw [hrest, hrest', BodyFrame.bytes, List.append_assoc]
    · rw [if_pos hsize, hbytes, ReadResult.map, hctx, advance_advance, BodyFrame.bytes,
        List.length_append, hlen]
      rfl
  · cases h

theorem binReadVecLoop_bodies {k : ℕ} {c : BinReadCtx} {r : ReadResult (List BinCode)}
    (h : binReadVecLoop {} (fun c => .returned (binReadCodeStructure c)) k c = .returned r)
    (hok : r.ok = true) :
    ∃ (bs : List BodyFrame) (rest : List UInt8), bs.length = k ∧ (∀ b ∈ bs, b.Valid) ∧
      c.rest = bs.flatMap BodyFrame.bytes ++ rest ∧
      r.value = (placeAt BodyFrame.bytes (binReaderAbsolutePos c) bs).map bodyCode ∧
      r.ctx = c.advance (bs.flatMap BodyFrame.bytes).length := by
  induction k generalizing c r with
  | zero =>
    obtain rfl := Outcome.returned.inj h
    exact ⟨[], c.rest, rfl, by simp, rfl, rfl, rfl⟩
  | succ k ih =>
    rw [binReadVecLoop, Outcome.returned_bind] at h
    split at h
    · rename_i hentry
      obtain ⟨more, hmore, h⟩ := Outcome.bind_eq_returned.mp h
      obtain rfl := Outcome.returned.inj h
      obtain ⟨b, r, hb, hrest, hread⟩ := binReadCodeStructure_frame_of_ok hentry
      rw [hread] at hmore
      obtain ⟨bs, rest, hlen, hbs, hrest', hvalue, hctx⟩ := ih hmore hok
      rw [rest_advance_of_eq hrest] at hrest'
      refine ⟨b :: bs, rest, by simp [hlen], List.forall_mem_cons.mpr ⟨hb, hbs⟩, ?_, ?_, ?_⟩
      · rw [hrest, hrest', List.flatMap_cons, List.append_assoc]
      · rw [ReadResult.map_value, hvalue, hread, placeAt, List.map_cons]
        simp only [binReaderAbsolutePos, BinReadCtx.advance, Nat.add_assoc]
      · rw [ReadResult.map_ctx, hctx, advance_advance, List.flatMap_cons, List.length_append]
    · obtain rfl := Outcome.returned.inj h
      cases hok

/-- The structure of a code section: the bodies, each at the position of its size. -/
theorem binReadCodeSectionStructure_bodies {c : BinReadCtx} {r : ReadResult (List BinCode)}
    (h : binReadCodeSectionStructure c = .returned r) (hok : r.ok = true) :
    ∃ (bs : List BodyFrame) (count rest : List UInt8), (∀ b ∈ bs, b.Valid) ∧
      Encoding.unsigned 32 bs.length count ∧
      c.rest = count ++ (bs.flatMap BodyFrame.bytes ++ rest) ∧
      r.value =
        (placeAt BodyFrame.bytes (binReaderAbsolutePos c + count.length) bs).map bodyCode ∧
      r.ctx = c.advance (count ++ bs.flatMap BodyFrame.bytes).length := by
  simp only [binReadCodeSectionStructure, binReadVec] at h
  split at h
  · rename_i hsize
    obtain ⟨count, rest, hrest, hcount, hctx⟩ := binReadU32Leb_accepts hsize
    obtain ⟨bs, rest', hlen, hbs, hrest', hvalue, hctx'⟩ := binReadVecLoop_bodies h hok
    rw [hctx, rest_advance_of_eq hrest] at hrest'
    refine ⟨bs, count, rest', hbs, ?_, ?_, ?_, ?_⟩
    · rw [hlen]
      exact hcount
    · rw [hrest, hrest']
    · rw [hvalue, hctx]
      simp only [binReaderAbsolutePos, BinReadCtx.advance, Nat.add_assoc]
    · rw [hctx', hctx, advance_advance, List.length_append]
  · obtain rfl := Outcome.returned.inj h
    cases hok

/-! ### Scopes that are true to the file -/

/-- The bytes `data` stand at `base` in the file. -/
def ScopeTrue (file : List UInt8) (base : ℕ) (data : List UInt8) : Prop :=
  base ≤ file.length ∧ data <+: file.drop base

/-- Behind a header that the payload repeats, the payload also stands at the header. -/
theorem RepeatsHeader.scopeTrue {file header payload : List UInt8} {pos : ℕ}
    (h : RepeatsHeader header payload) (hne : header ≠ [])
    (hpos : header ++ payload <+: file.drop pos) : ScopeTrue file pos payload := by
  refine ⟨?_, List.IsPrefix.trans h hpos⟩
  have hlen := hpos.length_le
  have hheader := List.length_pos_iff.mpr hne
  rw [List.length_append, List.length_drop] at hlen
  omega

theorem Encoding.unsigned_ne_nil {bits v : ℕ} {bs : List UInt8}
    (h : Encoding.unsigned bits v bs) : bs ≠ [] := by
  rintro rfl
  cases h.1

/-- The bodies of a code section that is true to the file are true to it. -/
theorem bodies_scopeTrue {file : List UInt8} {c : BinReadCtx} (hcurr : c.curr = 0)
    (hc : ScopeTrue file c.base c.data)
    (hbodies : ∀ bs, BodiesOf bs c.data → ∀ b ∈ bs, RepeatsHeader b.size b.body)
    {r : ReadResult (List BinCode)} (h : binReadCodeSectionStructure c = .returned r)
    (hok : r.ok = true) : ∀ code ∈ r.value, ScopeTrue file code.pos code.data := by
  obtain ⟨bs, count, rest, hvalid, hcount, hdata, hvalue, -⟩ :=
    binReadCodeSectionStructure_bodies h hok
  rw [BinReadCtx.rest, hcurr, List.drop_zero] at hdata
  have hbs : BodiesOf bs c.data := ⟨hvalid, count, rest, hcount, hdata⟩
  have hplace : bs.flatMap BodyFrame.bytes <+: file.drop (c.base + count.length) := by
    obtain ⟨more, hfile⟩ := hc.2
    rw [← List.drop_drop, ← hfile, hdata, List.append_assoc, List.append_assoc, List.drop_left]
    exact List.prefix_append _ _
  intro code hcode
  rw [hvalue, binReaderAbsolutePos, hcurr, Nat.add_zero] at hcode
  obtain ⟨q, hq, rfl⟩ := List.mem_map.mp hcode
  have hmem : q.2 ∈ bs := mem_of_mem_placeAt hq
  exact (hbodies bs hbs q.2 hmem).scopeTrue (Encoding.unsigned_ne_nil (hbs.1 q.2 hmem))
    (prefix_of_mem_placeAt hplace hq)

/-- What the lanes read of a scanned module is true to the file: the sections, the code
section, and the bodies its structure gives. -/
structure ModuleTrue (file : List UInt8) (m : BinModule) : Prop where
  sections : ∀ sec ∈ m.sections, sec.kind ≠ .code → ScopeTrue file sec.pos sec.data
  code : ∀ sec, 0 ≤ m.codeSectionIndex →
    m.sections[m.codeSectionIndex.toNat]? = some sec → ScopeTrue file sec.pos sec.data
  bodies : ∀ sec, 0 ≤ m.codeSectionIndex →
    m.sections[m.codeSectionIndex.toNat]? = some sec →
    ∀ c r, c.base = sec.pos → c.curr = 0 → c.data = sec.data →
      binReadCodeSectionStructure c = .returned r → r.ok = true →
      ∀ code ∈ r.value, ScopeTrue file code.pos code.data

theorem FileOf.scopeTrue {file : List UInt8} {fs : List SectionFrame} (h : FileOf fs file)
    {q : ℕ × SectionFrame} (hq : q ∈ placeAt SectionFrame.bytes 8 fs)
    (hrepeat : RepeatsHeader q.2.header q.2.payload) :
    ScopeTrue file (frameSection q).pos (frameSection q).data := by
  refine hrepeat.scopeTrue (List.cons_ne_nil _ _) (prefix_of_mem_placeAt ?_ hq)
  rw [h.2, ← List.append_assoc, List.drop_left' (by simp [le32])]

/-- A file that was scanned, when everything repeats its header. -/
theorem HeadersRepeat.moduleTrue {file : List UInt8} (h : HeadersRepeat file)
    {c : BinReadCtx} (hcurr : c.curr = 0) (hdata : c.data = file)
    (hok : (binScanModule c).ok = true) : ModuleTrue file (binScanModule c).value := by
  obtain ⟨fs, hfile, hsections, hindex⟩ := binScanModule_frames hcurr hdata hok
  have hlast : ∀ sec, 0 ≤ (binScanModule c).value.codeSectionIndex →
      (binScanModule c).value.sections[(binScanModule c).value.codeSectionIndex.toNat]? =
        some sec →
      ∃ q ∈ placeAt SectionFrame.bytes 8 fs, sec = frameSection q ∧ q.2.kind = 10 ∧
        ∃ fs₁ fs₂, fs = fs₁ ++ q.2 :: fs₂ ∧ ∀ g ∈ fs₂, g.kind ≠ 10 := by
    intro sec hpos hsec
    rw [hsections, hindex] at hsec
    exact codeSection_frame (hindex ▸ hpos) hsec
  refine ⟨?_, ?_, ?_⟩
  · intro sec hsec hkind
    rw [hsections] at hsec
    obtain ⟨q, hq, rfl⟩ := List.mem_map.mp hsec
    refine hfile.scopeTrue hq (h.sections fs hfile q.2 (mem_of_mem_placeAt hq) fun h10 => hkind ?_)
    exact (ofByte_eq_code_iff _).mpr h10
  · intro sec hpos hsec
    obtain ⟨q, hq, rfl, h10, fs₁, fs₂, rfl, hfs₂⟩ := hlast sec hpos hsec
    exact hfile.scopeTrue hq (h.code fs₁ q.2 fs₂ hfile h10 hfs₂)
  · intro sec hpos hsec d r hbase hcurr' hdata' hr hrok
    obtain ⟨q, hq, rfl, h10, fs₁, fs₂, rfl, hfs₂⟩ := hlast sec hpos hsec
    have hscope := hfile.scopeTrue hq (h.code fs₁ q.2 fs₂ hfile h10 hfs₂)
    rw [← hbase, ← hdata'] at hscope
    refine bodies_scopeTrue hcurr' hscope (fun bs hbs => ?_) hr hrok
    rw [hdata'] at hbs
    exact h.bodies fs₁ q.2 fs₂ hfile h10 hfs₂ bs hbs

/-! ### Runs -/

/-- What the lanes pass on is true to the file. -/
def LaneWord.TrueTo (file : List UInt8) : LaneWord → Prop
  | .module m => ModuleTrue file m
  | .codes binCodes => ∀ code ∈ binCodes, ScopeTrue file code.pos code.data
  | _ => True

/-- The invariant of a run: every context is true to the file, every diagnostic has a range
of the file, and so will it be with what the memory holds. -/
structure SharedTrue (file : List UInt8) (s : ReadShared n) : Prop where
  ctxs : ∀ lane, (s.ctxs lane).TrueTo file
  ranges : ∀ lane, ∀ x ∈ (s.ctxs lane).diags,
    x.range.start ≤ x.range.stop ∧ x.range.stop ≤ file.length
  memory : s.memory.TrueTo file

/-- The diagnostics that a step pushes lie inside the data of the context it leaves. -/
def PointsInside (s s' : ReadShared n) : Prop :=
  ∀ lane, ∀ x ∈ (s'.ctxs lane).diags,
    x ∈ (s.ctxs lane).diags ∨ (s'.ctxs lane).Covers x.range

theorem PointsInside.refl (s : ReadShared n) : PointsInside s s := fun _ _ hx => Or.inl hx

/-- A lane reads in a scope that is true to the file. -/
theorem SharedTrue.setCtx {file : List UInt8} {s : ReadShared n} (h : SharedTrue file s)
    {lane : Fin n} {base : ℕ} {data : List UInt8} (hscope : ScopeTrue file base data)
    {d : BinReadCtx} (hd : (binReaderSetScope (s.ctxs lane) base data).Stays d) :
    SharedTrue file (s.setCtx lane d) ∧ PointsInside s (s.setCtx lane d) := by
  have hbase : d.base = base := hd.advances.base
  have hdata : d.data = data := hd.advances.data
  have hnew : ∀ x ∈ d.diags, x ∈ (s.ctxs lane).diags ∨ d.Covers x.range := fun x hx => by
    rcases hd.covers (Nat.zero_le _) x hx with hx | hx
    · exact Or.inl hx
    · refine Or.inr ?_
      rw [Covers, hbase, hdata]
      exact hx
  have hself : (s.setCtx lane d).ctxs lane = d := Function.update_self ..
  have hrest : ∀ i, i ≠ lane → (s.setCtx lane d).ctxs i = s.ctxs i := fun i hi =>
    Function.update_of_ne hi _ _
  refine ⟨⟨fun i => ?_, fun i x hx => ?_, h.memory⟩, fun i x hx => ?_⟩
  · rcases eq_or_ne i lane with rfl | hi
    · rw [hself, trueTo_iff, hbase, hdata]
      exact hscope.2
    · rw [hrest i hi]
      exact h.ctxs i
  · rcases eq_or_ne i lane with rfl | hi
    · rw [hself] at hx
      rcases hnew x hx with hx | ⟨-, hle, hstop⟩
      · exact h.ranges i x hx
      · have hlen := hscope.2.length_le
        have hle' := hscope.1
        rw [hbase, hdata] at hstop
        rw [List.length_drop] at hlen
        exact ⟨hle, by omega⟩
    · rw [hrest i hi] at hx
      exact h.ranges i x hx
  · rcases eq_or_ne i lane with rfl | hi
    · rw [hself] at hx ⊢
      exact hnew x hx
    · rw [hrest i hi] at hx ⊢
      exact Or.inl hx

theorem SharedTrue.write {file : List UInt8} {s : ReadShared n} (h : SharedTrue file s)
    {w : LaneWord} (hw : w.TrueTo file) :
    SharedTrue file (laneMemory.write s w) ∧ PointsInside s (laneMemory.write s w) :=
  ⟨⟨h.ctxs, h.ranges, hw⟩, fun _ _ hx => Or.inl hx⟩

namespace Lane

variable {file : List UInt8} {fuel : ℕ} {lane : Fin n}

/-- A lane keeps the positions true. -/
abbrev KeepsTrue (file : List UInt8) (p : Prog (ReadShared n)) : Prop :=
  p.Keeps (SharedTrue file) PointsInside

theorem keepsTrue_crash : KeepsTrue file (crash : Prog (ReadShared n)) :=
  .act (fun _ _ _ _ h => by cases h) (fun _ _ _ _ h => by cases h)

theorem keepsTrue_onLane0 {f : ReadShared n → ReadShared n} {k : Prog (ReadShared n)}
    (hf : ∀ s, SharedTrue file s → SharedTrue file (f s) ∧ PointsInside s (f s))
    (hk : KeepsTrue file k) : KeepsTrue file (onLane0 lane f k) := by
  rw [onLane0]
  split
  · refine .act (fun s s' q hs h => ?_) (fun s s' q hs h => ?_)
    · obtain ⟨rfl, rfl⟩ := Prod.mk.inj (Outcome.returned.inj h)
      exact hf s hs
    · obtain ⟨rfl, rfl⟩ := Prod.mk.inj (Outcome.returned.inj h)
      exact hk
  · exact hk

/-- `lane_sync_value` from lane 0: it may write its value, and every lane can go on with what
it finds. -/
theorem keepsTrue_laneSyncValue {value : LaneWord} {k : LaneWord → Prog (ReadShared n)}
    (hvalue : lane.val = 0 → value.TrueTo file ∧ KeepsTrue file (k value))
    (hother : lane.val ≠ 0 → ∀ w, w.TrueTo file → KeepsTrue file (k w)) :
    KeepsTrue file (laneSyncValue laneMemory lane value 0 k) :=
  laneSyncValue_keeps PointsInside.refl (fun hlane _ hs => hs.write (hvalue hlane).1)
    (fun hlane => (hvalue hlane).2) fun hlane _ hs => hother hlane _ hs.memory

theorem keepsTrue_collect : KeepsTrue file (collect lane) :=
  keepsTrue_onLane0 (fun _ hs => ⟨⟨hs.ctxs, hs.ranges, hs.memory⟩, fun _ _ hx => Or.inl hx⟩) <|
    .sync <|
    keepsTrue_onLane0 (fun _ hs => ⟨⟨hs.ctxs, hs.ranges, hs.memory⟩, fun _ _ hx => Or.inl hx⟩)
      .done

theorem keepsTrue_readCodes {binCodes : List BinCode}
    (h : (LaneWord.codes binCodes).TrueTo file) :
    KeepsTrue file (readCodes fuel lane binCodes) := by
  refine Prog.Keeps.forEach (.sync keepsTrue_collect) fun i _ s s' hs hread => ?_
  rw [readCode] at hread
  split at hread
  · rename_i binCode hcode
    obtain ⟨code, hr, hread⟩ := Outcome.bind_eq_returned.mp hread
    split at hread
    · obtain rfl := Outcome.returned.inj hread
      have hscope := h binCode (List.mem_of_getElem? hcode)
      obtain ⟨htrue, hpoints⟩ := hs.setCtx hscope (binReadCode_stays hr)
      exact ⟨⟨htrue.ctxs, htrue.ranges, htrue.memory⟩, hpoints⟩
    · cases hread
  · cases hread

theorem keepsTrue_shareCodes {binCodes : List BinCode} {ok : LaneWord}
    (h : lane.val = 0 → ok.asFlag = true → (LaneWord.codes binCodes).TrueTo file) :
    KeepsTrue file (shareCodes fuel lane binCodes ok) := by
  rw [shareCodes]
  split
  · rename_i hok
    refine keepsTrue_laneSyncValue (fun hlane => ⟨h hlane hok, ?_⟩) fun _ w hw => ?_
    · exact keepsTrue_readCodes (h hlane hok)
    · split
      · exact keepsTrue_readCodes hw
      · exact keepsTrue_crash
  · exact .sync keepsTrue_collect

theorem keepsTrue_afterStructure {ok : Bool} {binCodes : List BinCode}
    (h : lane.val = 0 → ok = true → (LaneWord.codes binCodes).TrueTo file) :
    KeepsTrue file (afterStructure fuel lane ok binCodes) :=
  keepsTrue_laneSyncValue (fun hlane => ⟨trivial, keepsTrue_shareCodes fun _ => h hlane⟩)
    fun hlane _ _ => keepsTrue_shareCodes fun hlane' => absurd hlane' hlane

theorem keepsTrue_readStructure {codeSection : BinSection}
    (hscope : ScopeTrue file codeSection.pos codeSection.data)
    (hbodies : ∀ c r, c.base = codeSection.pos → c.curr = 0 → c.data = codeSection.data →
      binReadCodeSectionStructure c = .returned r → r.ok = true →
      ∀ code ∈ r.value, ScopeTrue file code.pos code.data) :
    KeepsTrue file (readStructure fuel lane codeSection) := by
  refine .act (fun s s' q hs h => ?_) (fun s s' q hs h => ?_)
  · dsimp only at h
    split at h
    · obtain ⟨r, hr, h⟩ := Outcome.bind_eq_returned.mp h
      obtain ⟨rfl, rfl⟩ := Prod.mk.inj (Outcome.returned.inj h)
      obtain ⟨htrue, hpoints⟩ := hs.setCtx hscope (binReadCodeSectionStructure_stays hr)
      split
      · exact ⟨⟨htrue.ctxs, htrue.ranges, htrue.memory⟩, hpoints⟩
      · exact ⟨htrue, hpoints⟩
    · obtain ⟨rfl, rfl⟩ := Prod.mk.inj (Outcome.returned.inj h)
      exact hs.setCtx hscope (Stays.refl _)
  · dsimp only at h
    split at h
    · obtain ⟨r, hr, h⟩ := Outcome.bind_eq_returned.mp h
      obtain ⟨rfl, rfl⟩ := Prod.mk.inj (Outcome.returned.inj h)
      exact keepsTrue_afterStructure fun _ hok => hbodies _ r rfl rfl rfl hr hok
    · rename_i hlane
      obtain ⟨rfl, rfl⟩ := Prod.mk.inj (Outcome.returned.inj h)
      exact keepsTrue_afterStructure fun hlane' => absurd hlane' hlane

theorem keepsTrue_readCodeSection {m : BinModule} (h : ModuleTrue file m) :
    KeepsTrue file (readCodeSection fuel lane m) := by
  rw [readCodeSection]
  split
  · rename_i hpos
    split
    · rename_i codeSection hsec
      exact keepsTrue_readStructure (h.code _ hpos hsec) (h.bodies _ hpos hsec)
    · exact keepsTrue_crash
  · exact .sync keepsTrue_collect

theorem keepsTrue_readSections {m : BinModule} (h : ModuleTrue file m) :
    KeepsTrue file (readSections fuel lane m) := by
  refine Prog.Keeps.forEach (.sync (keepsTrue_readCodeSection h)) fun sec hsec s s' hs hread => ?_
  have hmem : sec ∈ m.sections := List.mem_of_mem_take (List.mem_of_mem_drop hsec)
  rw [readSection] at hread
  split at hread
  · rename_i hkind
    obtain ⟨r, hr, hread⟩ := Outcome.bind_eq_returned.mp hread
    obtain rfl := Outcome.returned.inj hread
    obtain ⟨field, hfield, hr⟩ := Outcome.bind_eq_returned.mp hr
    obtain rfl := Outcome.returned.inj hr
    have hstays := binReadSection_stays fuel sec.kind hfield
    obtain ⟨htrue, hpoints⟩ := hs.setCtx (h.sections sec hmem hkind) hstays
    exact ⟨⟨htrue.ctxs, htrue.ranges, htrue.memory⟩, hpoints⟩
  · obtain rfl := Outcome.returned.inj hread
    exact ⟨hs, PointsInside.refl s⟩

/-- The module goes to all lanes that were told to go on. -/
theorem keepsTrue_shareModule {ok : Bool} {w binModule : LaneWord}
    {k : LaneWord → Prog (ReadShared n)}
    (h : lane.val = 0 → ok = true → binModule.TrueTo file)
    (hk : ∀ w : LaneWord, w.TrueTo file → KeepsTrue file (k w))
    (hw : lane.val = 0 → w = .flag ok) :
    KeepsTrue file (if w.asFlag then laneSyncValue laneMemory lane binModule 0 k else .done) := by
  split
  · rename_i hflag
    have hown : lane.val = 0 → binModule.TrueTo file := fun hlane => by
      rw [hw hlane] at hflag
      exact h hlane hflag
    exact keepsTrue_laneSyncValue (fun hlane => ⟨hown hlane, hk _ (hown hlane)⟩)
      fun _ w hw => hk w hw
  · exact .done

theorem keepsTrue_afterScan {ok : Bool} {binModule : LaneWord}
    (h : lane.val = 0 → ok = true → binModule.TrueTo file) :
    KeepsTrue file (afterScan fuel lane ok binModule) := by
  rw [afterScan]
  refine keepsTrue_laneSyncValue
    (fun _ => ⟨trivial, keepsTrue_shareModule h (fun w hw => ?_) fun _ => rfl⟩)
    fun hlane w _ => keepsTrue_shareModule h (fun w hw => ?_) fun hlane' => absurd hlane' hlane
  · split
    · exact keepsTrue_readSections hw
    · exact keepsTrue_crash
  · split
    · exact keepsTrue_readSections hw
    · exact keepsTrue_crash

theorem keepsTrue_scan (h : HeadersRepeat file) : KeepsTrue file (scan fuel file lane) := by
  rw [scan]
  split
  · have hfile : ScopeTrue file 0 file := ⟨Nat.zero_le _, List.prefix_refl _⟩
    refine .act (fun s s' q hs hscan => ?_) (fun s s' q hs hscan => ?_)
    · obtain ⟨rfl, rfl⟩ := Prod.mk.inj (Outcome.returned.inj hscan)
      obtain ⟨htrue, hpoints⟩ := hs.setCtx hfile
        (binScanModule_stays (binReaderSetScope (s.ctxs lane) 0 file))
      exact ⟨⟨htrue.ctxs, htrue.ranges, htrue.memory⟩, hpoints⟩
    · obtain ⟨rfl, rfl⟩ := Prod.mk.inj (Outcome.returned.inj hscan)
      exact keepsTrue_afterScan fun _ hok => h.moduleTrue rfl rfl hok
  · rename_i hlane
    exact keepsTrue_afterScan fun hlane' => absurd hlane' hlane

end Lane

theorem freshCtx_trueTo (file : List UInt8) : TrueTo file {} := fun i hi => by
  cases hi

theorem keepsTrue_binReadEntryPoint {file : List UInt8} (h : HeadersRepeat file) (fuel : ℕ)
    (lane : Fin n) : Lane.KeepsTrue file (binReadEntryPoint fuel file lane) := by
  refine .sync (Lane.keepsTrue_onLane0 (fun s hs => ?_) ?_)
  · exact ⟨⟨fun _ => freshCtx_trueTo file, fun _ _ => (absurd · List.not_mem_nil), hs.memory⟩,
      fun _ _ => (absurd · List.not_mem_nil)⟩
  · refine Lane.keepsTrue_laneSyncValue (fun _ => ⟨?_, ?_⟩) fun _ w _ => ?_
    · split
      · trivial
      · trivial
    · split
      · exact Lane.keepsTrue_scan h
      · exact Lane.keepsTrue_crash
    · split
      · exact Lane.keepsTrue_scan h
      · exact Lane.keepsTrue_crash

/-- The positions in a state: every context is true to the file, every diagnostic has a range
of the file, and the diagnostics of the next step lie inside the data that is read. -/
structure PositionsTrue (file : List UInt8) (c : Config (ReadShared n) n) : Prop where
  ctxs : ∀ lane, (c.shared.ctxs lane).TrueTo file
  ranges : ∀ lane, ∀ x ∈ (c.shared.ctxs lane).diags,
    x.range.start ≤ x.range.stop ∧ x.range.stop ≤ file.length
  next : ∀ d, Step c d → ∀ lane, ∀ x ∈ (d.shared.ctxs lane).diags,
    x ∈ (c.shared.ctxs lane).diags ∨ (d.shared.ctxs lane).Covers x.range

/-- When everything that is read in a scope repeats its header, the positions are true in
every state that a run reaches, for any number of lanes and any interleaving. -/
theorem binRead_positions_true {file : List UInt8} (h : HeadersRepeat file) (fuel n : ℕ)
    {c : Config (ReadShared n) n} (hrun : Run (binRead fuel file n) c) :
    PositionsTrue file c := by
  have hstart : SharedTrue file (binRead fuel file n).shared :=
    ⟨fun _ => freshCtx_trueTo file, fun _ _ => (absurd · List.not_mem_nil), trivial⟩
  obtain ⟨htrue, hlanes⟩ := hrun.keeps hstart (keepsTrue_binReadEntryPoint h fuel)
  exact ⟨htrue.ctxs, htrue.ranges, fun d hstep => hstep.keeps PointsInside.refl htrue hlanes⟩

/-- A file with a function section and a start section. The section of kind 3 and size 4 holds
the bytes 3, 4, 3 and 4, and the section of kind 8 and size 1 the byte 8. -/
def functionsAndStart : List UInt8 :=
  [0x00, 0x61, 0x73, 0x6D, 0x01, 0x00, 0x00, 0x00, 0x03, 0x04, 0x03, 0x04, 0x03, 0x04,
    0x08, 0x01, 0x08]

theorem fileOf_functionsAndStart {fs : List SectionFrame} (h : FileOf fs functionsAndStart) :
    fs = [⟨0x03, [0x04], [0x03, 0x04, 0x03, 0x04]⟩, ⟨0x08, [0x01], [0x08]⟩] := by
  refine h.unique ⟨List.forall_mem_cons.mpr ⟨⟨by decide, ?_⟩,
    List.forall_mem_singleton.mpr ⟨by decide, ?_⟩⟩, by decide⟩
  · exact ⟨.last (b := 0x04) (by decide), by decide, by decide⟩
  · exact ⟨.last (b := 0x01) (by decide), by decide, by decide⟩

/-- Both payloads repeat their headers, so the positions are true; two lanes read the whole
file, one section each. -/
theorem binRead_positions_true_functionsAndStart :
    HeadersRepeat functionsAndStart ∧
      ∃ c : Config (ReadShared 2) 2, Run (binRead 0 functionsAndStart 2) c ∧
        (c.shared.ctxs 0).data = [0x03, 0x04, 0x03, 0x04] ∧ (c.shared.ctxs 1).data = [0x08] ∧
        c.shared.done = true ∧ PositionsTrue functionsAndStart c := by
  have hframe : ∀ fs, FileOf fs functionsAndStart → ∀ f ∈ fs,
      f.kind ≠ 10 ∧ RepeatsHeader f.header f.payload := by
    intro fs hfs f hf
    rw [fileOf_functionsAndStart hfs] at hf
    obtain rfl | rfl := List.mem_pair.mp hf
    · exact ⟨by decide, [0x03, 0x04], rfl⟩
    · exact ⟨by decide, [0x01, 0x08], rfl⟩
  have hcode : ∀ fs f fs', FileOf (fs ++ f :: fs') functionsAndStart → f.kind ≠ 10 :=
    fun fs f fs' hfs => (hframe _ hfs f (by simp)).1
  have hrepeat : HeadersRepeat functionsAndStart :=
    ⟨fun fs hfs f hf _ => (hframe fs hfs f hf).2,
      fun fs f fs' hfs h10 => absurd h10 (hcode fs f fs' hfs),
      fun fs f fs' hfs h10 => absurd h10 (hcode fs f fs' hfs)⟩
  obtain ⟨c, hrun, htest⟩ := exists_run_of_exec (c := binRead 0 functionsAndStart 2)
    [none, some 0, some 0, none, some 1, none, some 0, some 0, none, some 1, none, some 0, none,
      some 1, none, some 1, some 0, none, none, some 0, none, some 0]
    (fun c => (c.shared.ctxs 0).data = [0x03, 0x04, 0x03, 0x04] ∧
      (c.shared.ctxs 1).data = [0x08] ∧ c.shared.done = true) (by decide +kernel)
  obtain ⟨hdata₀, hdata₁, hdone⟩ : (c.shared.ctxs 0).data = [0x03, 0x04, 0x03, 0x04] ∧
      (c.shared.ctxs 1).data = [0x08] ∧ c.shared.done = true := by simpa using htest
  exact ⟨hrepeat, c, hrun, hdata₀, hdata₁, hdone, binRead_positions_true hrepeat 0 2 hrun⟩

/-- A file with one type section, of size 1 and without types. Its byte stands at offset 10,
but the reader takes it for the byte at offset 8, where the section starts. -/
theorem binRead_positions_false :
    ∃ c : Config (ReadShared 1) 1,
      Run (binRead 0 [0x00, 0x61, 0x73, 0x6D, 0x01, 0x00, 0x00, 0x00, 0x01, 0x01, 0x00] 1) c ∧
      (c.shared.ctxs 0).base = 8 ∧ (c.shared.ctxs 0).data = [0x00] ∧
      ¬PositionsTrue [0x00, 0x61, 0x73, 0x6D, 0x01, 0x00, 0x00, 0x00, 0x01, 0x01, 0x00] c := by
  obtain ⟨c, hrun, htest⟩ := exists_run_of_exec
    (c := binRead 0 [0x00, 0x61, 0x73, 0x6D, 0x01, 0x00, 0x00, 0x00, 0x01, 0x01, 0x00] 1)
    [none, some 0, some 0, none, none, some 0, some 0, none, none, some 0, none, none, some 0]
    (fun c => (c.shared.ctxs 0).base = 8 ∧ (c.shared.ctxs 0).data = [0x00]) (by decide +kernel)
  obtain ⟨hbase, hdata⟩ : (c.shared.ctxs 0).base = 8 ∧ (c.shared.ctxs 0).data = [0x00] := by
    simpa using htest
  refine ⟨c, hrun, hbase, hdata, fun h => ?_⟩
  have hbyte := h.ctxs 0 0 (by rw [hdata]; decide)
  rw [hbase, hdata] at hbyte
  cases hbyte

end Wasim
