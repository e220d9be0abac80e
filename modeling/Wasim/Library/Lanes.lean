import Mathlib.Data.Fintype.Pi
import Mathlib.Data.Fintype.Fin
import Mathlib.Logic.Relation
import Mathlib.Logic.Function.Basic
import Mathlib.Data.List.FinRange
import Wasim.Library.Outcome

/-!
# Lanes that share memory and meet at a barrier

`n` lanes run the same procedure on one shared state of type `σ`. What a lane has left to do
is a `Lanes.Prog σ`: it is **done**, it waits at the **barrier**, or it **acts**: one atomic
change of the shared state that also says how the lane goes on. An action that crashes or
does not come back blocks its lane.

In a `Step` one lane acts, or all lanes wait and the barrier lets all of them go. Between two
barriers only the lanes' actions are interleaved (`Acts`), so a run that lets every lane
finish falls into phases (`Finish.phase`), and a statement about it is proved by following
the phases. There is one rule for each kind of phase: only one lane acts (`Finish.act`), the
lanes only look at the shared state (`Finish.looks`), every lane works through a list of its
own (`Finish.forEach`), which amounts to working through one interleaving of the lists, and
the lanes keep to invariants that the others do not disturb (`Finish.invariants`).
-/

namespace Lanes

/-- What a lane still has to do. -/
inductive Prog (σ : Type) where
  | done
  | sync (k : Prog σ)
  | act (f : σ → Outcome (σ × Prog σ))

/-- The shared state and what each lane still has to do. -/
structure Config (σ : Type) (n : ℕ) where
  shared : σ
  lanes : Fin n → Prog σ

variable {σ α : Type} {n : ℕ}

/-- One lane acts. -/
inductive Act : Config σ n → Config σ n → Prop
  | mk {s s' : σ} {p : Fin n → Prog σ} {q : Prog σ} (i : Fin n)
      (f : σ → Outcome (σ × Prog σ)) (hp : p i = .act f) (hf : f s = .returned (s', q)) :
      Act ⟨s, p⟩ ⟨s', Function.update p i q⟩

/-- One lane acts, or the barrier lets all lanes go. -/
inductive Step : Config σ n → Config σ n → Prop
  | act {c d : Config σ n} (h : Act c d) : Step c d
  | release {s : σ} {p k : Fin n → Prog σ} (h : ∀ i, p i = .sync (k i)) : Step ⟨s, p⟩ ⟨s, k⟩

abbrev Acts : Config σ n → Config σ n → Prop := Relation.ReflTransGen Act

abbrev Run : Config σ n → Config σ n → Prop := Relation.ReflTransGen Step

theorem Acts.run {c d : Config σ n} (h : Acts c d) : Run c d := by
  induction h with
  | refl => exact .refl
  | tail _ hact ih => exact ih.tail (.act hact)

/-- Some run from `c` lets every lane finish, in the shared state `t`. -/
def Finish (c : Config σ n) (t : σ) : Prop := Run c ⟨t, fun _ => .done⟩

/-- A program that does not act: it is done or waits. -/
def Prog.Halted : Prog σ → Prop
  | .act _ => False
  | _ => True

@[simp]
theorem Prog.halted_done : (Prog.done : Prog σ).Halted := trivial

@[simp]
theorem Prog.halted_sync (k : Prog σ) : (Prog.sync k).Halted := trivial

/-! ### Phases -/

/-- A run from `c` to a configuration is a phase, or a phase up to the barrier and the rest of
the run. -/
theorem Run.phase {c d : Config σ n} (h : Run c d) :
    Acts c d ∨ ∃ s p k, Acts c ⟨s, p⟩ ∧ (∀ i, p i = .sync (k i)) ∧ Run ⟨s, k⟩ d := by
  induction h using Relation.ReflTransGen.head_induction_on with
  | refl => exact Or.inl .refl
  | head hstep hrun ih =>
    rcases hstep with hact | hsync
    · rcases ih with hacts | ⟨s, p, k, hacts, hp, hk⟩
      · exact Or.inl (hacts.head hact)
      · exact Or.inr ⟨s, p, k, hacts.head hact, hp, hk⟩
    · exact Or.inr ⟨_, _, _, .refl, hsync, hrun⟩

/-- Every lane of a run that finishes halts at the end of the first phase: all of them are
done, or all of them wait and the run goes on behind the barrier. -/
theorem Finish.phase {c : Config σ n} {t : σ} (h : Finish c t) :
    ∃ s p, Acts c ⟨s, p⟩ ∧ (∀ i, (p i).Halted) ∧
      ((s = t ∧ ∀ i, p i = .done) ∨
        ∃ k, (∀ i, p i = .sync (k i)) ∧ Finish ⟨s, k⟩ t) := by
  rcases Run.phase h with hacts | ⟨s, p, k, hacts, hp, hk⟩
  · exact ⟨t, _, hacts, fun _ => trivial, Or.inl ⟨rfl, fun _ => rfl⟩⟩
  · exact ⟨s, p, hacts, fun i => by simp [hp i], Or.inr ⟨k, hp, hk⟩⟩

/-- What an action is. -/
theorem Act.exists_lane {s s' : σ} {p q : Fin n → Prog σ} (h : Act ⟨s, p⟩ ⟨s', q⟩) :
    ∃ i f r, p i = .act f ∧ f s = .returned (s', r) ∧ q = Function.update p i r := by
  obtain ⟨i, f, hp, hf⟩ := h
  exact ⟨i, f, _, hp, hf, rfl⟩

/-- When no lane acts, nothing happens. -/
theorem Acts.eq_of_halted {s t : σ} {p q : Fin n → Prog σ} (hp : ∀ i, (p i).Halted)
    (h : Acts ⟨s, p⟩ ⟨t, q⟩) : t = s ∧ q = p := by
  rcases Relation.ReflTransGen.cases_head h with heq | ⟨⟨s', p'⟩, hact, _⟩
  · simp only [Config.mk.injEq] at heq
    exact ⟨heq.1.symm, heq.2.symm⟩
  · obtain ⟨i, f, r, hi, -, -⟩ := hact.exists_lane
    have := hp i
    simp [hi, Prog.Halted] at this

/-- When all lanes wait, the barrier lets them go. -/
theorem Finish.release {s t : σ} {p k : Fin n → Prog σ} (hn : 0 < n)
    (hp : ∀ i, p i = .sync (k i)) (h : Finish ⟨s, p⟩ t) : Finish ⟨s, k⟩ t := by
  obtain ⟨s', p', hacts, -, hend⟩ := h.phase
  obtain ⟨rfl, rfl⟩ := hacts.eq_of_halted fun i => by simp [hp i]
  rcases hend with ⟨-, hdone⟩ | ⟨k', hk', hfin⟩
  · have := (hp ⟨0, hn⟩).symm.trans (hdone ⟨0, hn⟩)
    cases this
  · have hkk : k = k' := funext fun i => Prog.sync.inj ((hp i).symm.trans (hk' i))
    rwa [hkk]

theorem Finish.eq_of_done {s t : σ} (hn : 0 < n)
    (h : Finish (⟨s, fun _ => .done⟩ : Config σ n) t) : s = t := by
  obtain ⟨s', p, hacts, -, hend⟩ := h.phase
  obtain ⟨rfl, rfl⟩ := hacts.eq_of_halted fun _ => Prog.halted_done
  rcases hend with ⟨hst, -⟩ | ⟨k, hk, -⟩
  · exact hst
  · cases hk ⟨0, hn⟩

/-- When only lane `j` can act, it does. -/
theorem Finish.act {s t : σ} {p : Fin n → Prog σ} {j : Fin n} {f : σ → Outcome (σ × Prog σ)}
    (hj : p j = .act f) (hp : ∀ i, i ≠ j → (p i).Halted) (h : Finish ⟨s, p⟩ t) :
    ∃ s' q, f s = .returned (s', q) ∧ Finish ⟨s', Function.update p j q⟩ t := by
  rcases Relation.ReflTransGen.cases_head h with heq | ⟨c, hstep, hrest⟩
  · have hdone := congrFun (Config.mk.inj heq).2 j
    rw [hj] at hdone
    cases hdone
  · rcases hstep with hact | hsync
    · obtain ⟨s', p'⟩ := c
      obtain ⟨i, g, r, hi, hf, rfl⟩ := hact.exists_lane
      have hij : i = j := by
        by_contra hne
        have := hp i hne
        simp [hi, Prog.Halted] at this
      subst hij
      rw [hj] at hi
      obtain rfl := Prog.act.inj hi
      exact ⟨s', r, hf, hrest⟩
    · have := hsync j
      rw [hj] at this
      cases this

/-! ### A phase that only looks at the shared state -/

/-- `p` halts as `q`, at once or after an action that reads the shared state `s`. -/
def Looks (s : σ) (p q : Prog σ) : Prop :=
  q.Halted ∧ (p = q ∨ ∃ f, p = .act f ∧ f s = .returned (s, q))

/-- When every lane only looks at the shared state, each goes on as it would alone. -/
theorem Acts.looks {s t : σ} {p q r : Fin n → Prog σ} (hp : ∀ i, Looks s (p i) (r i))
    (hq : ∀ i, (q i).Halted) (h : Acts ⟨s, p⟩ ⟨t, q⟩) : t = s ∧ q = r := by
  generalize hc : (⟨s, p⟩ : Config σ n) = c at h
  induction h using Relation.ReflTransGen.head_induction_on generalizing p with
  | refl =>
    obtain ⟨rfl, rfl⟩ := Config.mk.inj hc
    refine ⟨rfl, funext fun i => ?_⟩
    rcases (hp i).2 with heq | ⟨f, hf, -⟩
    · exact heq
    · have := hq i
      simp [hf, Prog.Halted] at this
  | @head c d hact _ ih =>
    subst hc
    obtain ⟨s', p'⟩ := d
    obtain ⟨i, f, u, hi, hf, rfl⟩ := hact.exists_lane
    -- the lane that acts has not halted yet, so it looks
    rcases (hp i).2 with heq | ⟨g, hg, hgs⟩
    · have := (hp i).1
      simp [← heq, hi, Prog.Halted] at this
    · rw [hi] at hg
      obtain rfl := Prog.act.inj hg
      rw [hf] at hgs
      obtain ⟨rfl, rfl⟩ := Prod.mk.inj (Outcome.returned.inj hgs)
      refine ih (fun k => ?_) rfl
      rcases eq_or_ne k i with rfl | hk
      · rw [Function.update_self]
        exact ⟨(hp k).1, Or.inl rfl⟩
      · rw [Function.update_of_ne hk]
        exact hp k

/-- And every lane can do so. -/
theorem Acts.of_looks {s : σ} {p q : Fin n → Prog σ} (hp : ∀ i, Looks s (p i) (q i)) :
    Acts ⟨s, p⟩ ⟨s, q⟩ := by
  -- the lanes of a list have looked, the others not yet
  have hlist : ∀ l : List (Fin n), Acts ⟨s, p⟩ ⟨s, fun i => if i ∈ l then q i else p i⟩ := by
    intro l
    induction l with
    | nil =>
      simp only [List.not_mem_nil, if_false]
      exact .refl
    | cons j l ih =>
      have hupdate : (fun i => if i ∈ j :: l then q i else p i) =
          Function.update (fun i => if i ∈ l then q i else p i) j (q j) := by
        funext i
        rcases eq_or_ne i j with rfl | hi
        · simp
        · simp [hi]
      rw [hupdate]
      by_cases hj : j ∈ l
      · have hsame : Function.update (fun i => if i ∈ l then q i else p i) j (q j) =
            fun i => if i ∈ l then q i else p i :=
          Function.update_eq_self_iff.mpr (by simp [hj])
        rwa [hsame]
      · rcases (hp j).2 with heq | ⟨f, hf, hret⟩
        · have hsame : Function.update (fun i => if i ∈ l then q i else p i) j (q j) =
              fun i => if i ∈ l then q i else p i :=
            Function.update_eq_self_iff.mpr (by simp [hj, heq])
          rwa [hsame]
        · exact ih.tail (.mk j f (by simp [hj, hf]) hret)
  have hall := hlist (List.finRange n)
  simp only [List.mem_finRange, if_true] at hall
  exact hall

/-- A phase in which every lane only looks at the shared state. -/
theorem Finish.looks {s t : σ} {p k : Fin n → Prog σ} (hn : 0 < n)
    (hp : ∀ i, Looks s (p i) (.sync (k i))) (h : Finish ⟨s, p⟩ t) : Finish ⟨s, k⟩ t := by
  obtain ⟨s', p', hacts, hhalt, hend⟩ := h.phase
  obtain ⟨rfl, rfl⟩ := hacts.looks hp hhalt
  rcases hend with ⟨-, hdone⟩ | ⟨k', hk', hfin⟩
  · cases hdone ⟨0, hn⟩
  · have hkk : k = k' := funext fun i => Prog.sync.inj (hk' i)
    rwa [hkk]

/-! ### A phase under invariants -/

/-- Lane invariants that each action of a lane keeps, its own and those of the others, hold
throughout a phase. -/
theorem Acts.invariants {I : Fin n → σ → Prog σ → Prop}
    (hown : ∀ i s s' f q, I i s (.act f) → f s = .returned (s', q) → I i s' q)
    (hother : ∀ i j s s' f p q, i ≠ j → I i s (.act f) → f s = .returned (s', q) → I j s p →
      I j s' p)
    {s t : σ} {p q : Fin n → Prog σ} (hp : ∀ i, I i s (p i)) (h : Acts ⟨s, p⟩ ⟨t, q⟩) :
    ∀ i, I i t (q i) := by
  generalize hc : (⟨s, p⟩ : Config σ n) = c at h
  induction h using Relation.ReflTransGen.head_induction_on generalizing s p with
  | refl =>
    obtain ⟨rfl, rfl⟩ := Config.mk.inj hc
    exact hp
  | @head c d hact _ ih =>
    subst hc
    obtain ⟨s', p'⟩ := d
    obtain ⟨i, f, r, hi, hf, rfl⟩ := hact.exists_lane
    have hIi := hp i
    rw [hi] at hIi
    refine ih (fun j => ?_) rfl
    rcases eq_or_ne j i with rfl | hj
    · rw [Function.update_self]
      exact hown j s s' f r hIi hf
    · rw [Function.update_of_ne hj]
      exact hother i j s s' f _ r hj.symm hIi hf (hp j)

/-! ### A phase of loops -/

/-- A loop over a list: one action for each entry, then `k`. -/
def forEach (body : α → σ → Outcome σ) (k : Prog σ) : List α → Prog σ
  | [] => k
  | a :: as => .act fun s => do
    let s' ← body a s
    return (s', forEach body k as)

/-- The entries of a log that belong to lane `i`. -/
def entries (log : List (Fin n × α)) (i : Fin n) : List α :=
  log.filterMap fun e => if e.1 = i then some e.2 else none

theorem entries_cons (e : Fin n × α) (log : List (Fin n × α)) :
    entries (e :: log) = Function.update (entries log) e.1 (e.2 :: entries log e.1) := by
  funext i
  rcases eq_or_ne i e.1 with rfl | hi
  · rw [Function.update_self]
    simp [entries]
  · rw [Function.update_of_ne hi]
    simp [entries, hi.symm]

theorem forEach_halted {body : α → σ → Outcome σ} {k : Prog σ} {todo : List α}
    (h : (forEach body k todo).Halted) : todo = [] := by
  cases todo with
  | nil => rfl
  | cons a as => exact h.elim

/-- When every lane works through a list of its own, the lanes together work through one
interleaving of the lists. -/
theorem Acts.forEach {body : Fin n → α → σ → Outcome σ} {k : Fin n → Prog σ}
    (hk : ∀ i, (k i).Halted) {s t : σ} {todo : Fin n → List α} {q : Fin n → Prog σ}
    (hq : ∀ i, (q i).Halted)
    (h : Acts ⟨s, fun i => Lanes.forEach (body i) (k i) (todo i)⟩ ⟨t, q⟩) :
    q = k ∧ ∃ log : List (Fin n × α), entries log = todo ∧
      log.foldlM (fun s e => body e.1 e.2 s) s = Outcome.returned t := by
  generalize hc : (⟨s, fun i => Lanes.forEach (body i) (k i) (todo i)⟩ : Config σ n) = c at h
  induction h using Relation.ReflTransGen.head_induction_on generalizing s todo with
  | refl =>
    obtain ⟨rfl, rfl⟩ := Config.mk.inj hc
    have htodo : ∀ i, todo i = [] := fun i => forEach_halted (hq i)
    refine ⟨funext fun i => ?_, [], ?_, rfl⟩
    · rw [htodo i, Lanes.forEach]
    · funext i
      rw [htodo i]
      rfl
  | @head c d hact _ ih =>
    subst hc
    obtain ⟨s', p'⟩ := d
    obtain ⟨i, f, r, hi, hf, rfl⟩ := hact.exists_lane
    cases htodo : todo i with
    | nil =>
      have := hk i
      rw [htodo, Lanes.forEach] at hi
      simp [hi, Prog.Halted] at this
    | cons a as =>
      rw [htodo, Lanes.forEach] at hi
      obtain rfl := Prog.act.inj hi
      obtain ⟨s'', hbody, hs''⟩ := Outcome.bind_eq_returned.mp hf
      obtain ⟨rfl, rfl⟩ := Prod.mk.inj (Outcome.returned.inj hs'')
      have hp : Function.update (fun j => Lanes.forEach (body j) (k j) (todo j)) i
          (Lanes.forEach (body i) (k i) as) =
          fun j => Lanes.forEach (body j) (k j) (Function.update todo i as j) := by
        funext j
        rcases eq_or_ne j i with rfl | hj
        · simp
        · simp [Function.update_of_ne hj]
      obtain ⟨rfl, log, hlog, hrun⟩ := ih (by rw [hp])
      refine ⟨rfl, (i, a) :: log, ?_, ?_⟩
      · rw [entries_cons, hlog, Function.update_self, Function.update_idem, ← htodo,
          Function.update_eq_self]
      · rw [List.foldlM_cons, hbody]
        exact hrun

/-- A phase in which every lane works through a list of its own. -/
theorem Finish.forEach {body : Fin n → α → σ → Outcome σ} {k : Fin n → Prog σ} (hn : 0 < n)
    {s t : σ} {todo : Fin n → List α}
    (h : Finish ⟨s, fun i => Lanes.forEach (body i) (.sync (k i)) (todo i)⟩ t) :
    ∃ s' log, entries log = todo ∧
      log.foldlM (fun s e => body e.1 e.2 s) s = Outcome.returned s' ∧ Finish ⟨s', k⟩ t := by
  obtain ⟨s', p, hacts, hhalt, hend⟩ := h.phase
  obtain ⟨rfl, log, hlog, hrun⟩ := hacts.forEach (fun i => Prog.halted_sync (k i)) hhalt
  rcases hend with ⟨-, hdone⟩ | ⟨k', hk', hfin⟩
  · cases hdone ⟨0, hn⟩
  · have hkk : k = k' := funext fun i => Prog.sync.inj (hk' i)
    exact ⟨s', log, hlog, hrun, hkk ▸ hfin⟩

/-- Putting an entry on one of the lists of a family puts it on their concatenation, up to
order. -/
theorem flatMap_update_perm {ι : Type} [DecidableEq ι] (f : ι → List α) (i : ι)
    (a : α) {l : List ι} (hl : l.Nodup) (hi : i ∈ l) :
    (l.flatMap (Function.update f i (a :: f i))).Perm (a :: l.flatMap f) := by
  induction l with
  | nil => simp at hi
  | cons j l ih =>
    obtain ⟨hj, hl⟩ := List.nodup_cons.mp hl
    rw [List.flatMap_cons, List.flatMap_cons]
    rcases eq_or_ne i j with rfl | hij
    · have hsame : l.flatMap (Function.update f i (a :: f i)) = l.flatMap f := by
        refine List.flatMap_congr fun k hk => Function.update_of_ne ?_ _ _
        rintro rfl
        exact hj hk
      rw [Function.update_self, hsame, List.cons_append]
    · rw [Function.update_of_ne hij.symm]
      have hrest := ih hl ((List.mem_cons.mp hi).resolve_left hij)
      exact (hrest.append_left (f j)).trans List.perm_middle

/-- The lists of the lanes together hold the entries of the log, up to order. -/
theorem entries_perm (log : List (Fin n × α)) :
    (log.map Prod.snd).Perm ((List.finRange n).flatMap (entries log)) := by
  induction log with
  | nil => simp [entries, List.flatMap]
  | cons e log ih =>
    rw [entries_cons, List.map_cons]
    refine List.Perm.trans (ih.cons e.2) (List.Perm.symm ?_)
    exact flatMap_update_perm _ _ _ (List.nodup_finRange n) (List.mem_finRange e.1)

/-! ### Programs that keep an invariant -/

/-- As long as the other lanes keep the invariant `I`, every action of the program keeps it,
and changes the shared state in a way that `G` allows. -/
inductive Prog.Keeps (I : σ → Prop) (G : σ → σ → Prop) : Prog σ → Prop
  | done : Keeps I G .done
  | sync {k : Prog σ} (hk : Keeps I G k) : Keeps I G (.sync k)
  | act {f : σ → Outcome (σ × Prog σ)}
      (hI : ∀ s s' q, I s → f s = .returned (s', q) → I s' ∧ G s s')
      (hq : ∀ s s' q, I s → f s = .returned (s', q) → Keeps I G q) : Keeps I G (.act f)

theorem Prog.Keeps.forEach {I : σ → Prop} {G : σ → σ → Prop} {body : α → σ → Outcome σ}
    {k : Prog σ} (hk : k.Keeps I G) {todo : List α}
    (hbody : ∀ a ∈ todo, ∀ s s', I s → body a s = .returned s' → I s' ∧ G s s') :
    (Lanes.forEach body k todo).Keeps I G := by
  induction todo with
  | nil => exact hk
  | cons a as ih =>
    have hstep : ∀ s s' q, (do let s' ← body a s; return (s', Lanes.forEach body k as)) =
        Outcome.returned (s', q) → body a s = .returned s' ∧ q = Lanes.forEach body k as := by
      intro s s' q h
      obtain ⟨s'', hs'', h⟩ := Outcome.bind_eq_returned.mp h
      obtain ⟨rfl, rfl⟩ := Prod.mk.inj (Outcome.returned.inj h)
      exact ⟨hs'', rfl⟩
    refine .act (fun s s' q hs h => ?_) (fun s s' q hs h => ?_)
    · exact hbody a List.mem_cons_self s s' hs (hstep s s' q h).1
    · rw [(hstep s s' q h).2]
      exact ih fun b hb => hbody b (List.mem_cons_of_mem a hb)

/-- In every state a run reaches, the invariant holds and the lanes go on keeping it. -/
theorem Run.keeps {I : σ → Prop} {G : σ → σ → Prop} {c d : Config σ n} (hI : I c.shared)
    (hc : ∀ i, (c.lanes i).Keeps I G) (h : Run c d) :
    I d.shared ∧ ∀ i, (d.lanes i).Keeps I G := by
  induction h with
  | refl => exact ⟨hI, hc⟩
  | tail _ hstep ih =>
    obtain ⟨hI, hc⟩ := ih
    rcases hstep with ⟨i, f, hp, hf⟩ | hsync
    · have hi := hc i
      simp only [hp] at hi
      rcases hi with _ | _ | ⟨hact, hq⟩
      refine ⟨(hact _ _ _ hI hf).1, fun j => ?_⟩
      rcases eq_or_ne j i with rfl | hj
      · simpa using hq _ _ _ hI hf
      · simpa [Function.update_of_ne hj] using hc j
    · refine ⟨hI, fun i => ?_⟩
      have hi := hc i
      simp only [hsync i] at hi
      rcases hi with _ | hk
      exact hk

/-- Every step of such a run is one that `G` allows. -/
theorem Step.keeps {I : σ → Prop} {G : σ → σ → Prop} (hG : ∀ s, G s s) {c d : Config σ n}
    (hI : I c.shared) (hc : ∀ i, (c.lanes i).Keeps I G) (h : Step c d) :
    G c.shared d.shared := by
  rcases h with ⟨i, f, hp, hf⟩ | hsync
  · have hi := hc i
    simp only [hp] at hi
    rcases hi with _ | _ | ⟨hact, -⟩
    exact (hact _ _ _ hI hf).2
  · exact hG _

/-! ### Schedules -/

/-- The program behind the barrier, for a lane that waits at it. -/
def Prog.afterSync : Prog σ → Option (Prog σ)
  | .sync k => some k
  | _ => none

/-- One step of a schedule: the lane that acts, or `none` for the barrier. -/
def execStep (c : Config σ n) : Option (Fin n) → Option (Config σ n)
  | some i =>
    match c.lanes i with
    | .act f =>
      match f c.shared with
      | .returned (s, q) => some ⟨s, Function.update c.lanes i q⟩
      | _ => none
    | _ => none
  | none =>
    if ∀ i, (c.lanes i).afterSync.isSome then
      some ⟨c.shared, fun i => ((c.lanes i).afterSync).getD .done⟩
    else none

/-- Follow a schedule. -/
def exec (schedule : List (Option (Fin n))) (c : Config σ n) : Option (Config σ n) :=
  schedule.foldlM execStep c

theorem execStep_sound {c d : Config σ n} {o : Option (Fin n)} (h : execStep c o = some d) :
    Step c d := by
  obtain ⟨s, p⟩ := c
  rcases o with _ | i
  · simp only [execStep] at h
    split at h
    · rename_i hall
      obtain rfl := Option.some.inj h
      refine .release fun i => ?_
      cases hpi : p i with
      | sync k => simp [Prog.afterSync]
      | done => simpa [hpi, Prog.afterSync] using hall i
      | act f => simpa [hpi, Prog.afterSync] using hall i
    · simp at h
  · simp only [execStep] at h
    split at h
    · rename_i f hpi
      split at h
      · rename_i s' q hf
        obtain rfl := Option.some.inj h
        exact .act (.mk i f hpi hf)
      · simp at h
    · simp at h

/-- What a schedule reaches, a run reaches. -/
theorem exec_sound {schedule : List (Option (Fin n))} {c d : Config σ n}
    (h : exec schedule c = some d) : Run c d := by
  induction schedule generalizing c with
  | nil =>
    obtain rfl := Option.some.inj h
    exact .refl
  | cons o schedule ih =>
    rw [exec, List.foldlM_cons] at h
    obtain ⟨e, he, hd⟩ := Option.bind_eq_some_iff.mp h
    exact (ih hd).head (execStep_sound he)

/-- A schedule that reaches a configuration which passes a test. -/
theorem exists_run_of_exec {c : Config σ n} (schedule : List (Option (Fin n)))
    (test : Config σ n → Bool) (h : (exec schedule c).any test = true) :
    ∃ d, Run c d ∧ test d = true := by
  obtain ⟨d, hd, htest⟩ := (Option.any_eq_true _ _).mp h
  exact ⟨d, exec_sound hd, htest⟩

def Prog.isDone : Prog σ → Bool
  | .done => true
  | _ => false

/-- The shared state at the end of a schedule that lets every lane finish. -/
def execFinish (schedule : List (Option (Fin n))) (c : Config σ n) : Option σ := do
  let d ← exec schedule c
  if ∀ i, (d.lanes i).isDone then some d.shared else none

theorem execFinish_sound {schedule : List (Option (Fin n))} {c : Config σ n} {t : σ}
    (h : execFinish schedule c = some t) : Finish c t := by
  obtain ⟨⟨s, p⟩, hd, hs⟩ := Option.bind_eq_some_iff.mp h
  split at hs
  · rename_i hdone
    obtain rfl := Option.some.inj hs
    have hp : p = fun _ => .done := by
      funext i
      have hi := hdone i
      cases hpi : p i with
      | done => rfl
      | sync k => simp [hpi, Prog.isDone] at hi
      | act f => simp [hpi, Prog.isDone] at hi
    subst hp
    exact exec_sound hd
  · simp at hs

end Lanes
