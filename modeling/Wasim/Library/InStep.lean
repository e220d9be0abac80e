import Mathlib.Logic.Hydra
import Wasim.Library.Lanes

/-!
# Lanes that stay in step

No lane may wait at a barrier that another lane never reaches. Two things can go wrong: an
action does not come back (`Hangs`), or some lanes are done while others still wait. A
configuration is **in step** (`InStep`) when neither is the case in it. When that holds
throughout a phase, a lane that waits is not left alone: whatever the lanes do next, all of
them come to wait (`inevitable_allWait`). The reason is that a phase ends: every action leaves
the lane with a smaller program (`wellFounded_act`).

`Steady Q c` says that the lanes stay in step from `c` on, phase by phase, and that `Q` holds
whenever all of them wait. It is proved with one rule for each kind of phase, as statements
about finished runs are.
-/

namespace Lanes

variable {σ α : Type} {n : ℕ}

/-! ### Every phase ends -/

/-- `q` is left of `p` after an action, in some shared state. -/
def Prog.After (q p : Prog σ) : Prop := ∃ f s s', p = .act f ∧ f s = .returned (s', q)

theorem Prog.acc_after (p : Prog σ) : Acc Prog.After p := by
  -- the programs inside an outcome are accessible as well
  refine @Prog.rec σ (fun p => Acc Prog.After p)
    (fun o => ∀ s q, o = .returned (s, q) → Acc Prog.After q) (fun x => Acc Prog.After x.2)
    ?_ ?_ ?_ ?_ ?_ ?_ ?_ p
  · exact ⟨_, fun q ⟨f, s, s', h, _⟩ => by cases h⟩
  · exact fun k _ => ⟨_, fun q ⟨f, s, s', h, _⟩ => by cases h⟩
  · intro f ih
    refine ⟨_, fun q ⟨g, s, s', h, hg⟩ => ?_⟩
    obtain rfl := Prog.act.inj h
    exact ih s s' q hg
  · rintro ⟨s, q⟩ ih s' q' h
    obtain ⟨rfl, rfl⟩ := Prod.mk.inj (Outcome.returned.inj h)
    exact ih
  · exact fun s q h => by cases h
  · exact fun s q h => by cases h
  · exact fun s q ih => ih

/-- The lanes cannot act for ever without a barrier. -/
theorem wellFounded_act : WellFounded (Function.swap (Act : Config σ n → Config σ n → Prop)) := by
  refine Subrelation.wf ?_ (InvImage.wf (fun c : Config σ n => Finset.univ.val.map c.lanes)
    (WellFounded.cutExpand ⟨Prog.acc_after⟩))
  intro d c hact
  obtain ⟨i, f, hp, hf⟩ := hact
  rename_i s s' p q
  have huniv : (Finset.univ : Finset (Fin n)).val = i ::ₘ (Finset.univ.erase i).val := by
    rw [Finset.erase_val, Multiset.cons_erase (Finset.mem_univ i)]
  have hrest : (Finset.univ.erase i).val.map (Function.update p i q) =
      (Finset.univ.erase i).val.map p := by
    refine Multiset.map_congr rfl fun j hj => Function.update_of_ne ?_ _ _
    exact (Finset.mem_erase.mp (Finset.mem_val.mp hj)).1
  have hafter : Prog.After q (p i) := ⟨f, s, s', hp, hf⟩
  simp only [InvImage, huniv, Multiset.map_cons, Function.update_self, hrest]
  rw [← Multiset.singleton_add, ← Multiset.singleton_add]
  exact Relation.cutExpand_single_add hafter _

/-! ### In step -/

/-- The next action of the lane does not come back. -/
def Hangs (c : Config σ n) (i : Fin n) : Prop :=
  ∃ f, c.lanes i = .act f ∧ f c.shared = .outOfFuel

/-- The next action of the lane crashes, and with it the program. -/
def Crashes (c : Config σ n) (i : Fin n) : Prop :=
  ∃ f, c.lanes i = .act f ∧ f c.shared = .crashed

/-- All lanes wait at the barrier. -/
def AllWait (c : Config σ n) : Prop := ∃ k : Fin n → Prog σ, ∀ i, c.lanes i = .sync (k i)

/-- No lane hangs, and lanes that have all halted are all done or all wait. -/
structure InStep (c : Config σ n) : Prop where
  moves : ∀ i, ¬Hangs c i
  meets : (∀ i, (c.lanes i).Halted) → (∀ i, c.lanes i = .done) ∨ AllWait c

/-- Whatever happens from `c` on, `P` comes about. -/
inductive Inevitable (P : Config σ n → Prop) : Config σ n → Prop
  | now {c : Config σ n} (h : P c) : Inevitable P c
  | later {c d : Config σ n} (hstep : Step c d) (h : ∀ e, Step c e → Inevitable P e) :
      Inevitable P c

/-- A lane that waits is not left alone. -/
theorem inevitable_allWait {c : Config σ n} (h : ∀ d, Acts c d → InStep d) {i : Fin n}
    {k : Prog σ} (hi : c.lanes i = .sync k) :
    Inevitable (fun d => AllWait d ∨ ∃ j, Crashes d j) c := by
  induction c using wellFounded_act.induction with
  | _ c ih =>
    by_cases hall : ∀ j, (c.lanes j).Halted
    · rcases (h c .refl).meets hall with hdone | hwait
      · rw [hdone i] at hi
        cases hi
      · exact .now (Or.inl hwait)
    · -- some lane acts: it returns or it crashes
      obtain ⟨j, hj⟩ := not_forall.mp hall
      cases hp : c.lanes j with
      | done => simp [hp] at hj
      | sync k => simp [hp] at hj
      | act f =>
        cases hf : f c.shared with
        | outOfFuel => exact absurd ⟨f, hp, hf⟩ ((h c .refl).moves j)
        | crashed => exact .now (Or.inr ⟨j, f, hp, hf⟩)
        | returned r =>
          refine .later (.act (.mk (s := c.shared) (p := c.lanes) j f hp hf)) fun e he => ?_
          rcases he with hact | hsync
          · refine ih e hact (fun d hd => h d (hd.head hact)) ?_
            -- the lane that acts is another one
            obtain ⟨l, g, hl, -⟩ := hact
            rename_i p q
            have hil : i ≠ l := by
              rintro rfl
              have hil' : p i = .sync k := hi
              rw [hil'] at hl
              cases hl
            simpa [Function.update_of_ne hil] using hi
          · have hj' := hsync j
            cases hp.symm.trans hj'

/-! ### From phase to phase -/

/-- The lanes are in step throughout the phase from `c`, `Q` holds at the barrier at its end,
and behind it they go on so. -/
inductive Steady (Q : Config σ n → Prop) : Config σ n → Prop
  | mk {c : Config σ n} (phase : ∀ d, Acts c d → InStep d)
      (same : ∀ s p, Acts c ⟨s, p⟩ → (∀ i, ∃ k, p i = .sync k) → Q ⟨s, p⟩)
      (next : ∀ s p k, Acts c ⟨s, p⟩ → (∀ i, p i = .sync (k i)) → Steady Q ⟨s, k⟩) : Steady Q c

variable {Q : Config σ n → Prop}

/-- Every configuration of a run lies in a phase that began in step. -/
theorem Steady.run {c d : Config σ n} (h : Steady Q c) (hrun : Run c d) :
    ∃ b, Steady Q b ∧ Acts b d := by
  induction hrun with
  | refl => exact ⟨c, h, .refl⟩
  | tail _ hstep ih =>
    obtain ⟨b, hb, hacts⟩ := ih
    rcases hstep with hact | hsync
    · exact ⟨b, hb, hacts.tail hact⟩
    · obtain ⟨-, -, hnext⟩ := hb
      exact ⟨_, hnext _ _ _ hacts hsync, .refl⟩

theorem Steady.inStep {c d : Config σ n} (h : Steady Q c) (hrun : Run c d) : InStep d := by
  obtain ⟨b, ⟨hphase, -, -⟩, hacts⟩ := h.run hrun
  exact hphase d hacts

/-- In a run, a lane that waits is not left alone. -/
theorem Steady.waits {c d : Config σ n} (h : Steady Q c) (hrun : Run c d) {i : Fin n}
    {k : Prog σ} (hi : d.lanes i = .sync k) :
    Inevitable (fun e => AllWait e ∨ ∃ j, Crashes e j) d := by
  obtain ⟨b, ⟨hphase, -, -⟩, hacts⟩ := h.run hrun
  exact inevitable_allWait (fun e he => hphase e (hacts.trans he)) hi

theorem Steady.same {c d : Config σ n} (h : Steady Q c) (hrun : Run c d) (hd : AllWait d) :
    Q d := by
  obtain ⟨b, ⟨-, hsame, -⟩, hacts⟩ := h.run hrun
  obtain ⟨k, hk⟩ := hd
  exact hsame d.shared d.lanes hacts fun i => ⟨k i, hk i⟩

/-- A phase under invariants of the lanes. -/
theorem Steady.of_invariants (hn : 0 < n) {I : Fin n → σ → Prog σ → Prop}
    (hown : ∀ i s s' f q, I i s (.act f) → f s = .returned (s', q) → I i s' q)
    (hother : ∀ i j s s' f p q, i ≠ j → I i s (.act f) → f s = .returned (s', q) → I j s p →
      I j s' p)
    (hmoves : ∀ i s f, I i s (.act f) → f s ≠ .outOfFuel)
    {s : σ} {p : Fin n → Prog σ} (hp : ∀ i, I i s (p i))
    (hend : ∀ t (q : Fin n → Prog σ), (∀ i, I i t (q i)) → (∀ i, (q i).Halted) →
      (∀ i, q i = .done) ∨ ∃ k, (∀ i, q i = .sync (k i)) ∧ Q ⟨t, q⟩ ∧ Steady Q ⟨t, k⟩) :
    Steady Q ⟨s, p⟩ := by
  have hinv : ∀ d, Acts ⟨s, p⟩ d → ∀ i, I i d.shared (d.lanes i) := fun d hd =>
    Acts.invariants hown hother hp hd
  have hwait : ∀ t (q k : Fin n → Prog σ), Acts ⟨s, p⟩ ⟨t, q⟩ → (∀ i, q i = .sync (k i)) →
      Q ⟨t, q⟩ ∧ Steady Q ⟨t, k⟩ := by
    intro t q k hd hk
    rcases hend t q (hinv _ hd) (fun i => by simp [hk i]) with hdone | ⟨k', hk', hQ, hsteady⟩
    · cases (hdone ⟨0, hn⟩).symm.trans (hk ⟨0, hn⟩)
    · rw [show k = k' from funext fun i => Prog.sync.inj ((hk i).symm.trans (hk' i))]
      exact ⟨hQ, hsteady⟩
  refine .mk (fun d hd => ⟨fun i ⟨f, hf, hhang⟩ => ?_, fun hhalt => ?_⟩)
    (fun t q hd hq => ?_) fun t q k hd hk => (hwait t q k hd hk).2
  · have hi := hinv d hd i
    rw [hf] at hi
    exact hmoves i _ f hi hhang
  · rcases hend d.shared d.lanes (hinv d hd) hhalt with hdone | ⟨k, hk, -⟩
    · exact Or.inl hdone
    · exact Or.inr ⟨k, hk⟩
  · choose k hk using hq
    exact (hwait t q k hd hk).1

theorem steady_done (hn : 0 < n) (s : σ) : Steady Q ⟨s, fun _ => .done⟩ := by
  refine Steady.of_invariants (I := fun _ _ p => p = .done) hn ?_ ?_ ?_ (fun _ => rfl) ?_
  · intro _ _ _ _ _ h
    cases h
  · intro _ _ _ _ _ _ _ _ h
    cases h
  · intro _ _ _ h
    cases h
  · exact fun _ _ h _ => Or.inl h

/-- A phase in which every lane only looks at the shared state. -/
theorem Steady.looks (hn : 0 < n) {s : σ} {p k : Fin n → Prog σ}
    (hp : ∀ i, Looks s (p i) (.sync (k i))) (hQ : Q ⟨s, fun i => .sync (k i)⟩)
    (h : Steady Q ⟨s, k⟩) : Steady Q ⟨s, p⟩ := by
  have hact : ∀ i f, (.act f = p i ∨ .act f = Prog.sync (k i)) →
      f s = .returned (s, .sync (k i)) := by
    rintro i f (hf | hf)
    · rcases (hp i).2 with heq | ⟨g, hg, hgs⟩
      · rw [← hf] at heq
        cases heq
      · rw [← hf] at hg
        obtain rfl := Prog.act.inj hg
        exact hgs
    · cases hf
  refine Steady.of_invariants (I := fun i t q => t = s ∧ (q = p i ∨ q = .sync (k i))) hn
    ?_ ?_ ?_ (fun _ => ⟨rfl, Or.inl rfl⟩) ?_
  · rintro i t t' f q ⟨rfl, hf⟩ hret
    rw [hact i f hf] at hret
    obtain ⟨rfl, rfl⟩ := Prod.mk.inj (Outcome.returned.inj hret)
    exact ⟨rfl, Or.inr rfl⟩
  · rintro i j t t' f q r - ⟨rfl, hf⟩ hret hj
    rw [hact i f hf] at hret
    obtain ⟨rfl, rfl⟩ := Prod.mk.inj (Outcome.returned.inj hret)
    exact hj
  · rintro i t f ⟨rfl, hf⟩ hhang
    rw [hact i f hf] at hhang
    cases hhang
  · intro t q hq hhalt
    obtain rfl : t = s := (hq ⟨0, hn⟩).1
    have hqk : q = fun i => .sync (k i) := funext fun i => by
      rcases (hq i).2 with hi | hi
      · rcases (hp i).2 with heq | ⟨g, hg, -⟩
        · rw [hi, heq]
        · have := hhalt i
          simp [hi, hg, Prog.Halted] at this
      · exact hi
    rw [hqk]
    exact Or.inr ⟨k, fun _ => rfl, hQ, h⟩

theorem Steady.sync (hn : 0 < n) {s : σ} {k : Fin n → Prog σ}
    (hQ : Q ⟨s, fun i => .sync (k i)⟩) (h : Steady Q ⟨s, k⟩) :
    Steady Q ⟨s, fun i => .sync (k i)⟩ :=
  Steady.looks hn (fun _ => ⟨trivial, Or.inl rfl⟩) hQ h

/-- When only lane `j` can act, and its action returns. -/
theorem Steady.act {s s' : σ} {p : Fin n → Prog σ} {j : Fin n} {q : Prog σ}
    {f : σ → Outcome (σ × Prog σ)} (hj : p j = .act f) (hp : ∀ i, i ≠ j → (p i).Halted)
    (hf : f s = .returned (s', q)) (h : Steady Q ⟨s', Function.update p j q⟩) :
    Steady Q ⟨s, p⟩ := by
  have hcases : ∀ d, Acts ⟨s, p⟩ d → d = ⟨s, p⟩ ∨ Acts ⟨s', Function.update p j q⟩ d := by
    intro d hd
    rcases Relation.ReflTransGen.cases_head hd with heq | ⟨⟨t, r⟩, hact, hrest⟩
    · exact Or.inl heq.symm
    · obtain ⟨i, g, u, hi, hg, rfl⟩ := hact.exists_lane
      have hij : i = j := by
        by_contra hne
        have := hp i hne
        simp [hi, Prog.Halted] at this
      subst hij
      rw [hj] at hi
      obtain rfl := Prog.act.inj hi
      rw [hf] at hg
      obtain ⟨rfl, rfl⟩ := Prod.mk.inj (Outcome.returned.inj hg)
      exact Or.inr hrest
  -- the phase cannot end before the action
  have hend : ∀ t (r : Fin n → Prog σ), Acts ⟨s, p⟩ ⟨t, r⟩ → (∀ i, ∃ k, r i = .sync k) →
      Acts ⟨s', Function.update p j q⟩ ⟨t, r⟩ := by
    intro t r hd hr
    rcases hcases _ hd with heq | hd
    · obtain ⟨k, hk⟩ := hr j
      rw [(Config.mk.inj heq).2, hj] at hk
      cases hk
    · exact hd
  obtain ⟨hphase, hsame, hnext⟩ := h
  refine .mk (fun d hd => ?_) (fun t r hd hr => hsame t r (hend t r hd hr) hr)
    fun t r k hd hk => hnext t r k (hend t r hd fun i => ⟨k i, hk i⟩) hk
  · rcases hcases d hd with rfl | hd
    · refine ⟨fun i hhangs => ?_, fun hhalt => ?_⟩
      · obtain ⟨g, hg, hhang⟩ := hhangs
        rcases eq_or_ne i j with rfl | hi
        · obtain rfl := Prog.act.inj (hj.symm.trans hg)
          cases hf.symm.trans hhang
        · have := hp i hi
          simp [show p i = _ from hg, Prog.Halted] at this
      · have := hhalt j
        simp [hj, Prog.Halted] at this
    · exact hphase d hd

/-- A phase in which every lane works through a list of its own, with actions that come back
and keep the invariant `J`. -/
theorem Steady.forEach {body : Fin n → α → σ → Outcome σ} {k : Fin n → Prog σ} (hn : 0 < n)
    {J : σ → Prop} {s : σ} {todo : Fin n → List α}
    (hbody : ∀ i, ∀ a ∈ todo i, ∀ t, J t → body i a t ≠ .outOfFuel)
    (hJ : ∀ i, ∀ a ∈ todo i, ∀ t t', J t → body i a t = .returned t' → J t')
    (hs : J s) (hQ : ∀ t, J t → Q ⟨t, fun i => .sync (k i)⟩) (h : ∀ t, J t → Steady Q ⟨t, k⟩) :
    Steady Q ⟨s, fun i => Lanes.forEach (body i) (.sync (k i)) (todo i)⟩ := by
  -- what a lane still has to do is the loop over an end of its list
  have hact : ∀ i rest f, rest <:+ todo i →
      .act f = Lanes.forEach (body i) (.sync (k i)) rest →
      ∃ a as, a ∈ todo i ∧ as <:+ todo i ∧ ∀ t, f t = (do
        let t' ← body i a t
        return (t', Lanes.forEach (body i) (.sync (k i)) as)) := by
    intro i rest f hrest hf
    rcases rest with _ | ⟨a, as⟩
    · cases hf
    · rw [Lanes.forEach] at hf
      obtain rfl := Prog.act.inj hf
      exact ⟨a, as, hrest.subset List.mem_cons_self, (List.suffix_cons a as).trans hrest,
        fun _ => rfl⟩
  refine Steady.of_invariants (I := fun i t q => J t ∧ ∃ rest, rest <:+ todo i ∧
    q = Lanes.forEach (body i) (.sync (k i)) rest) hn ?_ ?_ ?_
    (fun i => ⟨hs, todo i, List.suffix_refl _, rfl⟩) ?_
  · rintro i t t' f q ⟨ht, rest, hrest, hf⟩ hret
    obtain ⟨a, as, ha, has, hbind⟩ := hact i rest f hrest hf
    rw [hbind] at hret
    obtain ⟨t'', ht'', hret⟩ := Outcome.bind_eq_returned.mp hret
    obtain ⟨rfl, rfl⟩ := Prod.mk.inj (Outcome.returned.inj hret)
    exact ⟨hJ i a ha t t'' ht ht'', as, has, rfl⟩
  · rintro i j t t' f q r - ⟨ht, rest, hrest, hf⟩ hret ⟨-, hq⟩
    obtain ⟨a, as, ha, has, hbind⟩ := hact i rest f hrest hf
    rw [hbind] at hret
    obtain ⟨t'', ht'', hret⟩ := Outcome.bind_eq_returned.mp hret
    obtain ⟨rfl, rfl⟩ := Prod.mk.inj (Outcome.returned.inj hret)
    exact ⟨hJ i a ha t t'' ht ht'', hq⟩
  · rintro i t f ⟨ht, rest, hrest, hf⟩ hhang
    obtain ⟨a, as, ha, has, hbind⟩ := hact i rest f hrest hf
    rw [hbind] at hhang
    rcases Outcome.bind_eq_outOfFuel.mp hhang with hhang | ⟨t', -, hhang⟩
    · exact hbody i a ha t ht hhang
    · cases hhang
  · intro t q hq hhalt
    have ht := (hq ⟨0, hn⟩).1
    have hqk : q = fun i => .sync (k i) := funext fun i => by
      obtain ⟨-, rest, -, hi⟩ := hq i
      have hnil := forEach_halted (hi ▸ hhalt i)
      rw [hi, hnil, Lanes.forEach]
    rw [hqk]
    exact Or.inr ⟨k, fun _ => rfl, hQ t ht, h t ht⟩

end Lanes
