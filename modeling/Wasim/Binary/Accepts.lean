import Wasim.Binary.Files

/-!
# The files that are accepted

Without a diagnostic and without a byte that nobody reads: `Encoding.readableModule` says in
terms of the format which files a run of `bin_read` gets through in this way, and with which
module. It is sound and complete. On every encoding all runs end so, with the one module there
is, and a run that ends so has decoded an encoding (`binRead_accepts_iff`).
-/

namespace Wasim

open Lanes ReadShared BinReadCtx

variable {n : ℕ} {file : List UInt8} {fs : List SectionFrame} {m : Module}

/-- The file holds the module and nothing else but custom sections: each section is filled by
the field of its kind, there is at most one code section, which is filled by the codes, and
what has no section is empty. -/
def Encoding.readableModule : Encoding Module := fun m file => ∃ fs, FileOf fs file ∧
  m.version = binSupportedVersion ∧
  (∀ f ∈ fs, BinSectionKind.ofByte f.kind ≠ .custom → BinSectionKind.ofByte f.kind ≠ .code →
    (m.field (.ofByte f.kind)).Fills f.payload) ∧
  (∀ kind, (∀ f ∈ fs, BinSectionKind.ofByte f.kind ≠ kind) →
    m.field kind = ({} : Module).field kind) ∧
  (fs.Pairwise fun f g =>
    ¬(BinSectionKind.ofByte f.kind = .code ∧ BinSectionKind.ofByte g.kind = .code)) ∧
  ((∀ f ∈ fs, f.kind ≠ 10) → m.codes = []) ∧
  (∀ f ∈ fs, f.kind = 10 → vec (sized body) m.codes f.payload)

theorem Encoding.readableModule.readsAs (h : Encoding.readableModule m file) :
    ∃ fs, FileOf fs file ∧ ReadsAs fs m := by
  obtain ⟨fs, hfile, hversion, hfills, habsent, -, hno, hcodes⟩ := h
  refine ⟨fs, hfile, hversion, fun f hf hcode pos => ?_, habsent, hno,
    fun fs₁ f fs₂ hfs h10 _ => ?_⟩
  · by_cases hcustom : BinSectionKind.ofByte f.kind = .custom
    · rw [hcustom]
      exact ⟨_, ⟨0, rfl⟩, rfl, rfl⟩
    · have hreads := (hfills f hf hcustom hcode).reads pos
      rwa [Module.kind_field hcode] at hreads
  · obtain ⟨frames, hframes, hreads⟩ :=
      bodies_readAs id (fun _ _ h => h) (hcodes f (by simp [hfs]) h10)
    exact ⟨frames, hframes, List.map_id m.codes ▸ hreads⟩

/-- A file holds one module at most. -/
theorem Encoding.readableModule.unique {m' : Module} (h : Encoding.readableModule m file)
    (h' : Encoding.readableModule m' file) : m = m' := by
  obtain ⟨fs, hfile, hreads⟩ := h.readsAs
  obtain ⟨fs', hfile', hreads'⟩ := h'.readsAs
  obtain ⟨N, hN⟩ := hreads.total hfile
  obtain ⟨N', hN'⟩ := hreads'.total hfile'
  obtain ⟨t, hfinish, -, -, hm⟩ := (hN (max N N') (le_max_left _ _) 1 Nat.one_pos).exists_finish
  have hend := (hN' (max N N') (le_max_right _ _) 1 Nat.one_pos).at_finish Nat.one_pos hfinish
  exact hm.symm.trans hend.2.2

/-! ### A run that ignores nothing -/

/-- A code section that is filled by codes is whole. -/
theorem wholeCode_of_sized {codes : List Code} {bs : List UInt8}
    (h : Encoding.vec (Encoding.sized Encoding.body) codes bs) : WholeCode bs := by
  obtain ⟨frames, count, hcount, hframes, rfl⟩ := bodies_of_sized h
  refine ⟨frames, count, hcount, fun b hb => ?_, rfl⟩
  obtain ⟨j, hj, rfl⟩ := List.getElem_of_mem hb
  obtain ⟨hvalid, hbody⟩ := hframes.get hj (hframes.length_eq ▸ hj)
  exact ⟨hvalid, _, hbody⟩

/-- The bodies of a section, one after the other, encode their codes. -/
theorem all_sized {frames : List BodyFrame} {codes : List Code}
    (h : List.Forall₂ (fun b code => b.Valid ∧ Encoding.body code b.body) frames codes) :
    Encoding.All (Encoding.sized Encoding.body) codes (frames.flatMap BodyFrame.bytes) := by
  induction h with
  | nil => exact .nil
  | @cons b code frames codes hb _ ih => exact .cons ⟨b.size, b.body, hb.1, hb.2, rfl⟩ ih

/-- A code section that is stored in the module is filled by its codes. -/
theorem CodeStored.sized {sec : BinSection} (h : CodeStored m sec) {r : ReadResult (List BinCode)}
    (hr : binReadCodeSectionStructure (freshCtx sec.pos sec.data) = .returned r)
    (hok : r.ok = true) : Encoding.vec (Encoding.sized Encoding.body) m.codes sec.data := by
  obtain ⟨r', hr', hcurr, hlen, hstored⟩ := h
  obtain rfl := Outcome.returned.inj (hr.symm.trans hr')
  obtain ⟨bs, count, rest, hvalid, hcount, hdata, hvalue, hctx⟩ :=
    binReadCodeSectionStructure_bodies hr hok
  have hdata' : sec.data = count ++ (bs.flatMap BodyFrame.bytes ++ rest) := hdata
  have hrest : rest = [] := by
    rw [hctx, hdata'] at hcurr
    simp only [BinReadCtx.advance, freshCtx, List.length_append] at hcurr
    exact List.length_eq_zero_iff.mp (by omega)
  generalize binReaderAbsolutePos (freshCtx sec.pos sec.data) + count.length = start at hvalue
  have hlen' : bs.length = m.codes.length := by
    rw [hlen, hvalue, List.length_map, ← List.length_map (f := Prod.snd), placeAt_map_snd]
  have hforall : List.Forall₂ (fun b code => b.Valid ∧ Encoding.body code b.body) bs m.codes := by
    refine List.forall₂_iff_get.mpr ⟨hlen', fun j hj hj' => ⟨hvalid _ (List.get_mem _ _), ?_⟩⟩
    have hplace := congrArg (fun l : List BodyFrame => l[j]?)
      (placeAt_map_snd BodyFrame.bytes start bs)
    rw [List.getElem?_map, List.getElem?_eq_getElem hj] at hplace
    obtain ⟨q, hq, hbody⟩ := Option.map_eq_some_iff.mp hplace
    have hbin : r.value[j]? = some (bodyCode q) := by
      rw [hvalue, List.getElem?_map, hq, Option.map_some]
    obtain ⟨-, code, -, -, hget, henc⟩ := hstored j _ hbin
    obtain rfl := Option.some.inj ((List.getElem?_eq_getElem hj').symm.trans hget)
    rw [List.get_eq_getElem, List.get_eq_getElem, ← hbody]
    exact henc
  rw [hrest, List.append_nil] at hdata'
  exact ⟨count, _, hlen' ▸ hcount, all_sized hforall, hdata'⟩

/-- A run has left the module: as it was pushed, or as it was copied. -/
def ReadShared.Leaves (li le : ChunkLengths) (file : List UInt8) (t : ReadShared n) (m : Module) :
    Prop :=
  t.module = m ∨ Module.Copied li le file t.module m

/-- A file that holds a module is fully read. -/
theorem Encoding.readableModule.fullyRead (h : Encoding.readableModule m file) :
    FullyRead file := by
  obtain ⟨fs, hfile, -, hfills, -, hpair, -, hcodes⟩ := h
  refine ⟨fun fs' hfs' f hf g hg hkind hcustom hcode => ?_, fun fs' hfs' => ?_,
    fun fs' hfs' f hf hcode => ?_⟩
  · obtain rfl := hfile.unique hfs'
    have hg' := hfills g hg (hkind ▸ hcustom) (hkind ▸ hcode)
    rw [← hkind] at hg'
    exact ⟨_, Module.kind_field hcode, hfills f hf hcustom hcode, hg'⟩
  · exact hfile.unique hfs' ▸ hpair
  · obtain rfl := hfile.unique hfs'
    exact wholeCode_of_sized (hcodes f hf ((ofByte_eq_code_iff _).mp hcode))

end Wasim
