import Wasim.Binary.Cursor

/-!
# Reads and scopes in sequence

A sequence of moves reads, opens scopes and closes them, innermost first. The frames of the open
scopes are the ones that `bin_reader_data_guard` keeps in the locals of its callers, a failed
guard included: its frame ends nothing.

The invariant is `Sound`: the position is inside of its data now, and would be in each of the
scopes around it, were the ones inside closed. `unwind frames c` is the context after closing
`frames`; seen from there a sequence only moves forward (`runCursor_later`), whatever it opens
and reads in between.
-/

namespace Wasim

open BinCursor

variable {α : Type}

/-- A primitive read. -/
inductive CursorRead where
  | bytes (count : ℕ)
  | t (size : ℕ)
  | byte
  | iXXLeb (bits : ℕ) (tName : String)
  | uXXLeb (bits : ℕ) (tName : String)

/-- The result without its value. -/
def CursorResult.forget (r : CursorResult α) : CursorResult Unit := ⟨(), r.ok, r.ctx⟩

def CursorRead.run (c : BinCursor) : CursorRead → Outcome (CursorResult Unit)
  | .bytes count => CursorResult.forget <$> c.readBytes count
  | .t size => CursorResult.forget <$> c.readT size
  | .byte => CursorResult.forget <$> c.readByte
  | .iXXLeb bits tName => CursorResult.forget <$> c.readIXXLeb bits tName
  | .uXXLeb bits tName => CursorResult.forget <$> c.readUXXLeb bits tName

inductive CursorMove where
  | read (read : CursorRead)
  | «open» (count : ℤ)
  | close

/-- The context with the frames of the open scopes, innermost first; `ok` is what the last read
or guard answered. -/
structure CursorState where
  ctx : BinCursor
  frames : List ScopeFrame := []
  ok : Bool := true

def cursorStep (s : CursorState) : CursorMove → Outcome CursorState
  | .read read => do
    let r ← read.run s.ctx
    return { s with ctx := r.ctx, ok := r.ok }
  | .open count => do
    let (f, ctx) ← s.ctx.pushData count
    return ⟨ctx, f :: s.frames, f.ok⟩
  | .close =>
    match s.frames with
    | [] => .crashed
    | f :: frames => .returned { s with ctx := endData f s.ctx, frames := frames }

def runCursor (s : CursorState) : List CursorMove → Outcome CursorState
  | [] => .returned s
  | move :: moves => do
    let t ← cursorStep s move
    runCursor t moves

/-- The open scopes behind a move at `depth` of them; `none` closes a scope that is not there. -/
def CursorMove.depth (depth : ℕ) : CursorMove → Option ℕ
  | .read _ => some depth
  | .open _ => some (depth + 1)
  | .close => if depth = 0 then none else some (depth - 1)

def depthAfter (depth : ℕ) : List CursorMove → Option ℕ
  | [] => some depth
  | move :: moves => (move.depth depth).bind fun d => depthAfter d moves

/-- Every scope that is closed was opened before. -/
def NestedMoves (moves : List CursorMove) : Prop := depthAfter 0 moves ≠ none

instance (moves : List CursorMove) : Decidable (NestedMoves moves) :=
  inferInstanceAs (Decidable (_ ≠ _))

/-- Properly nested, with every scope closed at the end. -/
def BalancedMoves (moves : List CursorMove) : Prop := depthAfter 0 moves = some 0

/-! ### Frames -/

/-- The context once the scopes of `frames` are closed. -/
def BinCursor.unwind : List ScopeFrame → BinCursor → BinCursor
  | [], c => c
  | f :: frames, c => unwind frames (endData f c)

/-- The position is inside of its data in every scope. -/
def BinCursor.Sound : List ScopeFrame → BinCursor → Prop
  | [], c => c.InBounds
  | f :: frames, c => c.InBounds ∧ Sound frames (endData f c)

theorem BinCursor.Sound.inBounds {frames : List ScopeFrame} {c : BinCursor} (h : Sound frames c) :
    c.InBounds := by
  cases frames with
  | nil => exact h
  | cons f frames => exact h.1

theorem endData_of_ok {f : ScopeFrame} (h : f.ok = true) (c : BinCursor) :
    endData f c = c.popData f.oldBase f.resumeCurr f.oldData :=
  if_pos h

theorem endData_of_not_ok {f : ScopeFrame} (h : f.ok = false) (c : BinCursor) : endData f c = c :=
  if_neg (by rw [h]; exact Bool.false_ne_true)

theorem later_endData {c d : BinCursor} (f : ScopeFrame) (h : c.Later d) :
    (endData f c).Later (endData f d) := by
  cases hok : f.ok with
  | true =>
    rw [endData_of_ok hok, endData_of_ok hok]
    exact ⟨rfl, rfl, le_rfl⟩
  | false =>
    rwa [endData_of_not_ok hok, endData_of_not_ok hok]

theorem later_unwind {c d : BinCursor} (frames : List ScopeFrame) (h : c.Later d) :
    (unwind frames c).Later (unwind frames d) := by
  induction frames generalizing c d with
  | nil => exact h
  | cons f frames ih => exact ih (later_endData f h)

/-- Moving forward inside of the innermost scope leaves the outer ones as they are. -/
theorem BinCursor.Sound.later {frames : List ScopeFrame} {c d : BinCursor} (h : Sound frames c)
    (hlater : c.Later d) (hd : d.InBounds) : Sound frames d := by
  induction frames generalizing c d with
  | nil => exact hd
  | cons f frames ih =>
    refine ⟨hd, ih h.2 (later_endData f hlater) ?_⟩
    cases hok : f.ok with
    | true =>
      have houter := h.2.inBounds
      rw [endData_of_ok hok] at houter ⊢
      exact ⟨houter.nonneg, houter.le_len⟩
    | false => rwa [endData_of_not_ok hok]

/-! ### One move -/

theorem CursorRead.run_spec {c : BinCursor} (h : c.InBounds) (read : CursorRead) :
    ∃ r, read.run c = .returned r ∧ Spec c r := by
  have hforget : ∀ {β : Type} {x : Outcome (CursorResult β)},
      (∃ r, x = .returned r ∧ Spec c r) →
        ∃ r, CursorResult.forget <$> x = .returned r ∧ Spec c r := by
    rintro β x ⟨r, rfl, hr⟩
    exact ⟨r.forget, rfl, hr.later, hr.bounds, hr.failed⟩
  cases read with
  | bytes count => exact hforget (readBytes_spec h count)
  | t size => exact hforget (readT_spec h size)
  | byte => exact hforget (readByte_spec h)
  | iXXLeb bits tName => exact hforget (readIXXLeb_spec h bits tName)
  | uXXLeb bits tName => exact hforget (readUXXLeb_spec h bits tName)

/-- A guard that succeeds opens a scope over the next `count` bytes. -/
theorem pushData_of_le {c : BinCursor} (h : c.InBounds) {count : ℤ} (hcount : 0 ≤ count)
    (hle : count ≤ c.data.len - c.curr) :
    ∃ base data, data.len = count ∧ c.pushData count =
      .returned (⟨c.base, c.curr + count, c.data, true⟩,
        { c with base := base, curr := 0, data := data }) := by
  rw [← h.dataLeft_eq] at hle
  have hlen := c.data.len_lt
  have hnonneg := h.nonneg
  obtain ⟨data, hslice, hbytes⟩ := h.slice_bytes hcount hle
  refine ⟨wrapInt (c.base + c.curr), data, ?_, ?_⟩
  · have hdata : c.data.len = c.data.bytes.length := rfl
    rw [h.dataLeft_eq] at hle
    rw [ByteSlice.len, hbytes, List.length_take, List.length_drop]
    omega
  · rw [pushData, if_neg (by omega)]
    dsimp only
    rw [h.wrap_add hcount hle, add_sub_cancel_right,
      wrapInt_eq (by omega) (by have := h.le_len; omega), hslice]
    rfl

/-- A guard that fails pushes a diagnostic and a frame that ends nothing. -/
theorem pushData_of_not_le {c : BinCursor} (h : c.InBounds) {count : ℤ}
    (hcount : ¬(0 ≤ count ∧ count ≤ c.data.len - c.curr)) :
    ∃ start stop format args,
      c.pushData count = .returned ({}, c.errorf start stop format args) := by
  rw [← h.dataLeft_eq] at hcount
  rw [pushData, if_pos (by omega)]
  exact ⟨_, _, _, _, rfl⟩

/-- A guard returns in both cases, and closing its scope at once leads forward. -/
theorem pushData_spec {c : BinCursor} (h : c.InBounds) (count : ℤ) :
    ∃ f d, c.pushData count = .returned (f, d) ∧ d.InBounds ∧ c.Later (endData f d) ∧
      (endData f d).InBounds := by
  by_cases hcount : 0 ≤ count ∧ count ≤ c.data.len - c.curr
  · obtain ⟨base, data, hlen, hpush⟩ := pushData_of_le h hcount.1 hcount.2
    have hnonneg := h.nonneg
    refine ⟨_, _, hpush, ⟨le_rfl, ?_⟩, ⟨rfl, rfl, ?_⟩, ⟨?_, ?_⟩⟩
    · change 0 ≤ data.len
      omega
    · change c.curr ≤ c.curr + count
      omega
    · change 0 ≤ c.curr + count
      omega
    · change c.curr + count ≤ c.data.len
      omega
  · obtain ⟨start, stop, format, args, hpush⟩ := pushData_of_not_le h hcount
    have hbounds : (c.errorf start stop format args).InBounds := ⟨h.nonneg, h.le_len⟩
    exact ⟨_, _, hpush, hbounds, later_errorf c _ _ _ _, hbounds⟩

/-- One move, seen from the scopes `outer` that stay open: inside of them it opens, closes or
reads, and the position only moves forward. -/
theorem cursorStep_later {s : CursorState} {inner outer : List ScopeFrame} {move : CursorMove}
    {d : ℕ} (hframes : s.frames = inner ++ outer) (hs : Sound s.frames s.ctx)
    (hdepth : move.depth inner.length = some d) :
    ∃ t inner', cursorStep s move = .returned t ∧ t.frames = inner' ++ outer ∧
      inner'.length = d ∧ Sound t.frames t.ctx ∧
      (unwind inner s.ctx).Later (unwind inner' t.ctx) := by
  cases move with
  | read read =>
    obtain ⟨r, hread, hspec⟩ := read.run_spec hs.inBounds
    refine ⟨⟨r.ctx, s.frames, r.ok⟩, inner, ?_, hframes, Option.some.inj hdepth, ?_, ?_⟩
    · rw [cursorStep, hread]
      rfl
    · exact hs.later hspec.later hspec.bounds
    · exact later_unwind inner hspec.later
  | «open» count =>
    obtain ⟨f, c, hpush, hc, hlater, hend⟩ := pushData_spec hs.inBounds count
    refine ⟨⟨c, f :: s.frames, f.ok⟩, f :: inner, ?_, ?_, Option.some.inj hdepth, ⟨hc, ?_⟩, ?_⟩
    · rw [cursorStep, hpush]
      rfl
    · rw [hframes]
      rfl
    · exact hs.later hlater hend
    · exact later_unwind inner hlater
  | close =>
    cases inner with
    | nil => cases hdepth
    | cons f inner =>
      rw [hframes] at hs
      refine ⟨⟨endData f s.ctx, inner ++ outer, s.ok⟩, inner, ?_, rfl, ?_, hs.2, Later.refl _⟩
      · rw [cursorStep, hframes]
        rfl
      · exact Option.some.inj hdepth

/-- A sequence of moves never crashes, and seen from the scopes `outer` that stay open the
position only moves forward. -/
theorem runCursor_later {s : CursorState} {inner outer : List ScopeFrame} {moves : List CursorMove}
    {d : ℕ} (hframes : s.frames = inner ++ outer) (hs : Sound s.frames s.ctx)
    (hdepth : depthAfter inner.length moves = some d) :
    ∃ t inner', runCursor s moves = .returned t ∧ t.frames = inner' ++ outer ∧
      inner'.length = d ∧ Sound t.frames t.ctx ∧
      (unwind inner s.ctx).Later (unwind inner' t.ctx) := by
  induction moves generalizing s inner with
  | nil => exact ⟨s, inner, rfl, hframes, Option.some.inj hdepth, hs, Later.refl _⟩
  | cons move moves ih =>
    obtain ⟨d', hmove, hmoves⟩ := Option.bind_eq_some_iff.mp hdepth
    obtain ⟨t, inner', hstep, htframes, rfl, ht, hlater⟩ := cursorStep_later hframes hs hmove
    obtain ⟨u, inner'', hrun, huframes, hlen, hu, hlater'⟩ := ih htframes ht hmoves
    exact ⟨u, inner'', by rw [runCursor, hstep]; exact hrun, huframes, hlen, hu,
      hlater.trans hlater'⟩

/-- A balanced sequence leaves the open scopes as they are and moves forward in the innermost
of them. -/
theorem runCursor_balanced {s : CursorState} {body : List CursorMove}
    (hs : Sound s.frames s.ctx) (hbody : BalancedMoves body) :
    ∃ t, runCursor s body = .returned t ∧ t.frames = s.frames ∧ Sound t.frames t.ctx ∧
      s.ctx.Later t.ctx := by
  obtain ⟨t, inner', hrun, hframes, hlen, ht, hlater⟩ :=
    runCursor_later (List.nil_append s.frames).symm hs hbody
  obtain rfl := List.length_eq_zero_iff.mp hlen
  exact ⟨t, hrun, hframes, ht, hlater⟩

/-! ### The discipline of the cursor -/

/-- What holds at any moment, whatever was read and opened before: the position is inside of its
data, and whatever follows keeps to the rules of the cursor. -/
structure CursorState.Disciplined (s : CursorState) : Prop where
  bounds : s.ctx.InBounds
  /-- A read does not crash; it moves forward inside of the data, and a read that fails does
  not move at all. -/
  read : ∀ read : CursorRead, ∃ t, cursorStep s (.read read) = .returned t ∧
    t.frames = s.frames ∧ t.ctx.InBounds ∧ s.ctx.Later t.ctx ∧
    (t.ok = false → t.ctx.curr = s.ctx.curr)
  /-- Whatever is done inside of the current scope, scopes of its own included, the position in
  it does not decrease. -/
  within : ∀ body, BalancedMoves body → ∃ t, runCursor s body = .returned t ∧
    t.frames = s.frames ∧ t.ctx.InBounds ∧ s.ctx.Later t.ctx
  /-- A scope can be opened over the bytes that are left. Its end restores base and data and
  moves by `count`, whatever `body` did; a scope that cannot be opened neither changes anything
  at its start nor at its end. -/
  scope : ∀ count body, BalancedMoves body → ∃ o e t, cursorStep s (.open count) = .returned o ∧
    runCursor o body = .returned e ∧ cursorStep e .close = .returned t ∧ t.frames = s.frames ∧
    (o.ok = true ↔ 0 ≤ count ∧ count ≤ s.ctx.data.len - s.ctx.curr) ∧
    (o.ok = true → t.ctx.base = s.ctx.base ∧ t.ctx.data = s.ctx.data ∧
      t.ctx.curr = s.ctx.curr + count) ∧
    (o.ok = false → o.ctx.base = s.ctx.base ∧ o.ctx.data = s.ctx.data ∧
      o.ctx.curr = s.ctx.curr ∧ t.ctx = e.ctx)

theorem BinCursor.Sound.read {s : CursorState} (hs : Sound s.frames s.ctx) (read : CursorRead) :
    ∃ t, cursorStep s (.read read) = .returned t ∧ t.frames = s.frames ∧ t.ctx.InBounds ∧
      s.ctx.Later t.ctx ∧ (t.ok = false → t.ctx.curr = s.ctx.curr) := by
  obtain ⟨r, hread, hspec⟩ := read.run_spec hs.inBounds
  refine ⟨⟨r.ctx, s.frames, r.ok⟩, ?_, rfl, hspec.bounds, hspec.later, hspec.failed⟩
  rw [cursorStep, hread]
  rfl

/-- The end of the scope of `f`, after any balanced `body`. -/
theorem BinCursor.Sound.close {d : BinCursor} {f : ScopeFrame} {frames : List ScopeFrame}
    (hd : Sound (f :: frames) d) (ok : Bool) {body : List CursorMove}
    (hbody : BalancedMoves body) :
    ∃ e t, runCursor ⟨d, f :: frames, ok⟩ body = .returned e ∧
      cursorStep e .close = .returned t ∧ t.frames = frames ∧ t.ctx = endData f e.ctx := by
  obtain ⟨e, hrun, hframes, -, -⟩ := runCursor_balanced (s := ⟨d, f :: frames, ok⟩) hd hbody
  refine ⟨e, ⟨endData f e.ctx, frames, e.ok⟩, hrun, ?_, rfl, rfl⟩
  rw [cursorStep, hframes]

theorem BinCursor.Sound.scope {s : CursorState} (hs : Sound s.frames s.ctx) (count : ℤ)
    {body : List CursorMove} (hbody : BalancedMoves body) :
    ∃ o e t, cursorStep s (.open count) = .returned o ∧
      runCursor o body = .returned e ∧ cursorStep e .close = .returned t ∧ t.frames = s.frames ∧
      (o.ok = true ↔ 0 ≤ count ∧ count ≤ s.ctx.data.len - s.ctx.curr) ∧
      (o.ok = true → t.ctx.base = s.ctx.base ∧ t.ctx.data = s.ctx.data ∧
        t.ctx.curr = s.ctx.curr + count) ∧
      (o.ok = false → o.ctx.base = s.ctx.base ∧ o.ctx.data = s.ctx.data ∧
        o.ctx.curr = s.ctx.curr ∧ t.ctx = e.ctx) := by
  have hc := hs.inBounds
  have hopen : ∀ {f : ScopeFrame} {d : BinCursor}, s.ctx.pushData count = .returned (f, d) →
      cursorStep s (.open count) = .returned ⟨d, f :: s.frames, f.ok⟩ ∧
        Sound (f :: s.frames) d := by
    intro f d hpush
    obtain ⟨f', d', hpush', hd, hlater, hend⟩ := pushData_spec hc count
    obtain ⟨rfl, rfl⟩ := Prod.mk.inj (Outcome.returned.inj (hpush'.symm.trans hpush))
    exact ⟨by rw [cursorStep, hpush]; rfl, hd, hs.later hlater hend⟩
  by_cases hcount : 0 ≤ count ∧ count ≤ s.ctx.data.len - s.ctx.curr
  · obtain ⟨base, data, -, hpush⟩ := pushData_of_le hc hcount.1 hcount.2
    obtain ⟨hstep, hsound⟩ := hopen hpush
    obtain ⟨e, t, hrun, hclose, hframes, ht⟩ := hsound.close _ hbody
    refine ⟨_, e, t, hstep, hrun, hclose, hframes, iff_of_true rfl hcount, fun _ => ?_, nofun⟩
    rw [ht]
    exact ⟨rfl, rfl, rfl⟩
  · obtain ⟨start, stop, format, args, hpush⟩ := pushData_of_not_le hc hcount
    obtain ⟨hstep, hsound⟩ := hopen hpush
    obtain ⟨e, t, hrun, hclose, hframes, ht⟩ := hsound.close _ hbody
    exact ⟨_, e, t, hstep, hrun, hclose, hframes, iff_of_false nofun hcount, nofun,
      fun _ => ⟨rfl, rfl, rfl, ht⟩⟩

theorem BinCursor.Sound.disciplined {s : CursorState} (hs : Sound s.frames s.ctx) :
    s.Disciplined where
  bounds := hs.inBounds
  read := hs.read
  within := fun body hbody => by
    obtain ⟨t, hrun, hframes, ht, hlater⟩ := runCursor_balanced hs hbody
    exact ⟨t, hrun, hframes, ht.inBounds, hlater⟩
  scope := fun count _ hbody => hs.scope count hbody

/-- **The cursor discipline**: from a position inside of its data no properly nested sequence of
reads and scopes crashes, and the rules of the cursor hold after every one of them. -/
theorem cursor_disciplined {c : BinCursor} (hc : c.InBounds) {moves : List CursorMove}
    (hmoves : NestedMoves moves) :
    ∃ s, runCursor { ctx := c } moves = .returned s ∧ s.Disciplined := by
  obtain ⟨d, hd⟩ := Option.ne_none_iff_exists'.mp hmoves
  obtain ⟨s, -, hrun, -, -, hs, -⟩ :=
    runCursor_later (s := { ctx := c }) (List.nil_append []).symm hc hd
  exact ⟨s, hrun, hs.disciplined⟩

/-- A scope of two bytes of which one is read, and a guard that asks for too much. -/
theorem cursor_disciplined_three :
    ∃ s, runCursor { ctx := ⟨-5, 0, ⟨[1, 2, 3], by decide⟩, []⟩ }
      [.read .byte, .open 2, .read .byte, .close, .open 9, .read .byte, .close] = .returned s ∧
        s.Disciplined :=
  cursor_disciplined ⟨by decide, by decide⟩ (by decide +kernel)

end Wasim
