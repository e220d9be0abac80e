import Wasim.Library.InStep

/-!
# Lanes that all come to be done

`Total P c` is the total weakest precondition of lanes: whatever order the lanes act in, no
action crashes or hangs, the lanes can always go on, and after finitely many steps all of them
are done, in a shared state with `P`. So a proof of it speaks of safety (`Total.safe`), of
termination (`Total.inevitable`) and of the result (`Total.of_finish`) at once.

There is one rule for each kind of phase, with the names of those of `Steady`. They all rest on
`Total.of_invariants`: a phase ends (`wellFounded_act`), so it is enough that the actions return
and keep invariants of the lanes, and to go on where all lanes have halted.
-/

namespace Lanes

variable {σ α : Type} {n : ℕ} {P Q : σ → Prop}

/-- No action that comes next crashes or hangs. -/
def Config.Sound (c : Config σ n) : Prop :=
  ∀ i f, c.lanes i = .act f → ∃ r, f c.shared = .returned r

/-- Whatever the lanes do, all of them come to be done, in a shared state with `P`. -/
inductive Total (P : σ → Prop) : Config σ n → Prop
  | done {c : Config σ n} (hdone : ∀ i, c.lanes i = .done) (h : P c.shared) : Total P c
  | step {c d : Config σ n} (hsound : c.Sound) (hstep : Step c d)
      (h : ∀ e, Step c e → Total P e) : Total P c

/-! ### What it says -/

theorem Config.Sound.not_crashes {c : Config σ n} (h : c.Sound) (i : Fin n) : ¬Crashes c i := by
  rintro ⟨f, hf, hcrash⟩
  obtain ⟨r, hr⟩ := h i f hf
  cases hr.symm.trans hcrash

theorem Config.Sound.not_hangs {c : Config σ n} (h : c.Sound) (i : Fin n) : ¬Hangs c i := by
  rintro ⟨f, hf, hhang⟩
  obtain ⟨r, hr⟩ := h i f hf
  cases hr.symm.trans hhang

/-- Lanes that are all done take no step. -/
theorem not_step_done (hn : 0 < n) {c d : Config σ n} (h : ∀ i, c.lanes i = .done) :
    ¬Step c d := by
  rintro (hact | hsync)
  · obtain ⟨i, f, hi, -⟩ := hact
    cases (h i).symm.trans hi
  · cases (h ⟨0, hn⟩).symm.trans (hsync ⟨0, hn⟩)

theorem Total.next (hn : 0 < n) {c d : Config σ n} (h : Total P c) (hstep : Step c d) :
    Total P d := by
  cases h with
  | done hdone => exact absurd hstep (not_step_done hn hdone)
  | step _ _ hnext => exact hnext d hstep

theorem Total.run (hn : 0 < n) {c d : Config σ n} (h : Total P c) (hrun : Run c d) :
    Total P d := by
  induction hrun with
  | refl => exact h
  | tail _ hstep ih => exact ih.next hn hstep

theorem Total.sound {c : Config σ n} (h : Total P c) : c.Sound := by
  cases h with
  | done hdone =>
    intro i f hf
    cases (hdone i).symm.trans hf
  | step hsound => exact hsound

/-- No configuration that is reached crashes or hangs. -/
theorem Total.safe (hn : 0 < n) {c d : Config σ n} (h : Total P c) (hrun : Run c d) (i : Fin n) :
    ¬Crashes d i ∧ ¬Hangs d i :=
  ⟨(h.run hn hrun).sound.not_crashes i, (h.run hn hrun).sound.not_hangs i⟩

/-- From every configuration that is reached, all lanes come to be done. -/
theorem Total.inevitable (hn : 0 < n) {c d : Config σ n} (h : Total P c) (hrun : Run c d) :
    Inevitable (fun e => (∀ i, e.lanes i = .done) ∧ P e.shared) d := by
  have hd := h.run hn hrun
  clear h hrun
  induction hd with
  | done hdone hP => exact .now ⟨hdone, hP⟩
  | step _ hstep _ ih => exact .later hstep ih

theorem finish_of_done {c : Config σ n} (h : ∀ i, c.lanes i = .done) : Finish c c.shared := by
  obtain ⟨s, p⟩ := c
  obtain rfl : p = fun _ => .done := funext h
  exact .refl

/-- The lanes do come to be done. -/
theorem Total.exists_finish {c : Config σ n} (h : Total P c) : ∃ t, Finish c t ∧ P t := by
  induction h with
  | done hdone hP => exact ⟨_, finish_of_done hdone, hP⟩
  | step _ hstep _ ih =>
    obtain ⟨t, hfinish, hP⟩ := ih _ hstep
    exact ⟨t, hfinish.head hstep, hP⟩

/-- Wherever they have come to be done, `P` holds. -/
theorem Total.at_finish (hn : 0 < n) {c : Config σ n} (h : Total P c) {t : σ} (ht : Finish c t) :
    P t := by
  cases h.run hn ht with
  | done _ hP => exact hP
  | step _ hstep => exact absurd hstep (not_step_done hn fun _ => rfl)

/-- What is true of every run that lets the lanes finish is true of the shared state in the
end. -/
theorem Total.of_finish {c : Config σ n} (h : Total P c) (hQ : ∀ t, Finish c t → Q t) :
    Total Q c := by
  induction h with
  | done hdone _ => exact .done hdone (hQ _ (finish_of_done hdone))
  | step hsound hstep _ ih =>
    exact .step hsound hstep fun e he => ih e he fun t ht => hQ t (ht.head he)

/-! ### The rules -/

/-- A phase under invariants of the lanes, whose actions return. -/
theorem Total.of_invariants {I : Fin n → σ → Prog σ → Prop}
    (hown : ∀ i s s' f q, I i s (.act f) → f s = .returned (s', q) → I i s' q)
    (hother : ∀ i j s s' f p q, i ≠ j → I i s (.act f) → f s = .returned (s', q) → I j s p →
      I j s' p)
    (hreturns : ∀ i s f, I i s (.act f) → ∃ r, f s = .returned r)
    {s : σ} {p : Fin n → Prog σ} (hp : ∀ i, I i s (p i))
    (hend : ∀ t (q : Fin n → Prog σ), (∀ i, I i t (q i)) → (∀ i, (q i).Halted) →
      ((∀ i, q i = .done) ∧ P t) ∨ ∃ k, (∀ i, q i = .sync (k i)) ∧ Total P ⟨t, k⟩) :
    Total P ⟨s, p⟩ := by
  suffices hall : ∀ c : Config σ n, (∀ i, I i c.shared (c.lanes i)) → Total P c from
    hall ⟨s, p⟩ hp
  intro c
  induction c using wellFounded_act.induction with
  | _ c ih =>
    intro hc
    have hsound : c.Sound := fun i f hf => hreturns i c.shared f (hf ▸ hc i)
    by_cases hhalted : ∀ i, (c.lanes i).Halted
    · rcases hend c.shared c.lanes hc hhalted with ⟨hdone, hP⟩ | ⟨k, hk, htotal⟩
      · exact .done hdone hP
      · refine .step hsound (.release (s := c.shared) hk) fun e he => ?_
        rcases he with hact | hsync
        · obtain ⟨i, f, hi, -⟩ := hact
          cases (hk i).symm.trans hi
        · rename_i u r k'
          rwa [show k' = k from funext fun i => Prog.sync.inj ((hsync i).symm.trans (hk i))]
    · obtain ⟨i, hi⟩ := not_forall.mp hhalted
      cases hprog : c.lanes i with
      | done => simp [hprog] at hi
      | sync k => simp [hprog] at hi
      | act f =>
        obtain ⟨⟨s', q⟩, hf⟩ := hsound i f hprog
        refine .step hsound (.act (.mk (s := c.shared) (p := c.lanes) i f hprog hf)) fun e he => ?_
        rcases he with hact | hsync
        · refine ih e hact fun j => ?_
          obtain ⟨l, g, hl, hg⟩ := hact
          rename_i u u' r r'
          have hIl := hc l
          dsimp only at hIl hc ⊢
          rw [hl] at hIl
          rcases eq_or_ne j l with rfl | hj
          · rw [Function.update_self]
            exact hown j u u' g r' hIl hg
          · rw [Function.update_of_ne hj]
            exact hother l j u u' g (r j) r' hj.symm hIl hg (hc j)
        · cases (hsync i).symm.trans hprog

theorem Total.of_done (s : σ) (h : P s) : Total P (⟨s, fun _ => .done⟩ : Config σ n) :=
  .done (fun _ => rfl) h

/-- A phase in which every lane only looks at the shared state. -/
theorem Total.looks (hn : 0 < n) {s : σ} {p k : Fin n → Prog σ}
    (hp : ∀ i, Looks s (p i) (.sync (k i))) (h : Total P ⟨s, k⟩) : Total P ⟨s, p⟩ := by
  have hact : ∀ i f, (.act f = p i ∨ .act f = Prog.sync (k i)) →
      f s = .returned (s, .sync (k i)) := by
    rintro i f (hf | hf)
    · rcases (hp i).2 with heq | ⟨g, hg, hgs⟩
      · cases hf.trans heq
      · obtain rfl := Prog.act.inj (hf.trans hg)
        exact hgs
    · cases hf
  refine Total.of_invariants (I := fun i t q => t = s ∧ (q = p i ∨ q = .sync (k i)))
    ?_ ?_ ?_ (fun _ => ⟨rfl, Or.inl rfl⟩) ?_
  · rintro i t t' f q ⟨rfl, hf⟩ hret
    obtain ⟨rfl, rfl⟩ := Prod.mk.inj (Outcome.returned.inj ((hact i f hf).symm.trans hret))
    exact ⟨rfl, Or.inr rfl⟩
  · rintro i j t t' f q r - ⟨rfl, hf⟩ hret hj
    obtain ⟨rfl, rfl⟩ := Prod.mk.inj (Outcome.returned.inj ((hact i f hf).symm.trans hret))
    exact hj
  · rintro i t f ⟨rfl, hf⟩
    exact ⟨_, hact i f hf⟩
  · intro t q hq hhalt
    obtain rfl : t = s := (hq ⟨0, hn⟩).1
    refine Or.inr ⟨k, fun i => ?_, h⟩
    rcases (hq i).2 with hi | hi
    · rcases (hp i).2 with heq | ⟨g, hg, -⟩
      · rw [hi, heq]
      · have := hhalt i
        simp [hi, hg, Prog.Halted] at this
    · exact hi

theorem Total.sync (hn : 0 < n) {s : σ} {k : Fin n → Prog σ} (h : Total P ⟨s, k⟩) :
    Total P ⟨s, fun i => .sync (k i)⟩ :=
  Total.looks hn (fun _ => ⟨trivial, Or.inl rfl⟩) h

/-- When only lane `j` can act, and its action returns. -/
theorem Total.act {s s' : σ} {p : Fin n → Prog σ} {j : Fin n} {q : Prog σ}
    {f : σ → Outcome (σ × Prog σ)} (hj : p j = .act f) (hp : ∀ i, i ≠ j → (p i).Halted)
    (hf : f s = .returned (s', q)) (h : Total P ⟨s', Function.update p j q⟩) :
    Total P ⟨s, p⟩ := by
  have honly : ∀ i g, p i = .act g → i = j := by
    intro i g hi
    by_contra hne
    have := hp i hne
    simp [hi, Prog.Halted] at this
  refine .step (fun i g hg => ?_) (.act (.mk j f hj hf)) fun e he => ?_
  · obtain rfl := honly i g hg
    obtain rfl := Prog.act.inj (hj.symm.trans hg)
    exact ⟨_, hf⟩
  · rcases he with hact | hsync
    · obtain ⟨s'', p'⟩ := e
      obtain ⟨i, g, r, hi, hg, rfl⟩ := hact.exists_lane
      obtain rfl := honly i g hi
      obtain rfl := Prog.act.inj (hj.symm.trans hi)
      obtain ⟨rfl, rfl⟩ := Prod.mk.inj (Outcome.returned.inj (hf.symm.trans hg))
      exact h
    · cases (hsync j).symm.trans hj

/-- A phase in which every lane works through a list of its own, with actions that return and
keep the invariant `J`. -/
theorem Total.forEach {body : Fin n → α → σ → Outcome σ} {k : Fin n → Prog σ} (hn : 0 < n)
    {J : σ → Prop} {s : σ} {todo : Fin n → List α}
    (hbody : ∀ i, ∀ a ∈ todo i, ∀ t, J t → ∃ t', body i a t = .returned t' ∧ J t')
    (hs : J s) (h : ∀ t, J t → Total P ⟨t, k⟩) :
    Total P ⟨s, fun i => Lanes.forEach (body i) (.sync (k i)) (todo i)⟩ := by
  -- what a lane still has to do is the loop over an end of its list
  have hact : ∀ i rest f t, rest <:+ todo i → J t →
      .act f = Lanes.forEach (body i) (.sync (k i)) rest →
      ∃ t' as, J t' ∧ as <:+ todo i ∧
        f t = .returned (t', Lanes.forEach (body i) (.sync (k i)) as) := by
    intro i rest f t hrest ht hf
    rcases rest with _ | ⟨a, as⟩
    · cases hf
    · rw [Lanes.forEach] at hf
      obtain rfl := Prog.act.inj hf
      obtain ⟨t', hbody', ht'⟩ := hbody i a (hrest.subset List.mem_cons_self) t ht
      refine ⟨t', as, ht', (List.suffix_cons a as).trans hrest, ?_⟩
      dsimp only
      rw [hbody']
      rfl
  refine Total.of_invariants (I := fun i t q => J t ∧ ∃ rest, rest <:+ todo i ∧
    q = Lanes.forEach (body i) (.sync (k i)) rest) ?_ ?_ ?_
    (fun i => ⟨hs, todo i, List.suffix_refl _, rfl⟩) ?_
  · rintro i t t' f q ⟨ht, rest, hrest, hf⟩ hret
    obtain ⟨t'', as, ht'', has, hreturn⟩ := hact i rest f t hrest ht hf
    obtain ⟨rfl, rfl⟩ := Prod.mk.inj (Outcome.returned.inj (hreturn.symm.trans hret))
    exact ⟨ht'', as, has, rfl⟩
  · rintro i j t t' f q r - ⟨ht, rest, hrest, hf⟩ hret ⟨-, hq⟩
    obtain ⟨t'', as, ht'', has, hreturn⟩ := hact i rest f t hrest ht hf
    obtain ⟨rfl, rfl⟩ := Prod.mk.inj (Outcome.returned.inj (hreturn.symm.trans hret))
    exact ⟨ht'', hq⟩
  · rintro i t f ⟨ht, rest, hrest, hf⟩
    obtain ⟨t', as, -, -, hreturn⟩ := hact i rest f t hrest ht hf
    exact ⟨_, hreturn⟩
  · intro t q hq hhalt
    refine Or.inr ⟨k, fun i => ?_, h t (hq ⟨0, hn⟩).1⟩
    obtain ⟨-, rest, -, hi⟩ := hq i
    have hnil := forEach_halted (hi ▸ hhalt i)
    rw [hi, hnil, Lanes.forEach]

end Lanes
