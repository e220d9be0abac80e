import Mathlib.Data.List.FinRange
import Mathlib.Data.List.Flatten
import Mathlib.Order.Monotone.Basic
import Wasim.Library.InStep

/-!
# Lanes

`base/thread.odin`: how a group of lanes shares out values (`thread_distribute_values`), and
how one lane hands a value to the others through the shared memory of the group
(`lane_sync_value`). The memory is typed here by what the lanes put into it.
-/

namespace Wasim

open Lanes

/-! ### Sharing out values -/

structure Rng1 where
  start : ℕ
  stop : ℕ
  deriving DecidableEq, Repr

def threadDistributeValues (valuesCount threadIdx threadCount : ℕ) : Rng1 :=
  let valuesPerThread := valuesCount / threadCount
  let leftoverValuesCount := valuesCount % threadCount
  let leftoversBefore :=
    if threadIdx < leftoverValuesCount then threadIdx else leftoverValuesCount
  let threadFirstValueIdx := valuesPerThread * threadIdx + leftoversBefore
  ⟨threadFirstValueIdx,
    threadFirstValueIdx + valuesPerThread + if threadIdx < leftoverValuesCount then 1 else 0⟩

def laneRange {n : ℕ} (lane : Fin n) (valuesCount : ℕ) : Rng1 :=
  threadDistributeValues valuesCount lane n

/-- `s[rng.start:rng.end]` -/
def rng1Slice {α : Type} (rng : Rng1) (s : List α) : List α := (s.take rng.stop).drop rng.start

def laneRangeSlice {α : Type} {n : ℕ} (lane : Fin n) (s : List α) : List α :=
  rng1Slice (laneRange lane s.length) s

/-- The first value of a thread is the one after the last value of the thread before. -/
theorem threadDistributeValues_stop (valuesCount i n : ℕ) :
    (threadDistributeValues valuesCount i n).stop =
      (threadDistributeValues valuesCount (i + 1) n).start := by
  simp only [threadDistributeValues, Nat.mul_succ]
  split_ifs <;> omega

theorem threadDistributeValues_start_zero (valuesCount n : ℕ) :
    (threadDistributeValues valuesCount 0 n).start = 0 := by
  simp [threadDistributeValues]

theorem threadDistributeValues_start_le (valuesCount i n : ℕ) :
    (threadDistributeValues valuesCount i n).start ≤
      (threadDistributeValues valuesCount (i + 1) n).start := by
  rw [← threadDistributeValues_stop]
  simp only [threadDistributeValues]
  exact (Nat.le_add_right _ _).trans (Nat.le_add_right _ _)

/-- Behind the last thread nothing is left over. -/
theorem threadDistributeValues_start_count (valuesCount : ℕ) {n : ℕ} (hn : 0 < n) :
    (threadDistributeValues valuesCount n n).start = valuesCount := by
  have hmod := Nat.mod_lt valuesCount hn
  have hdiv := Nat.div_add_mod valuesCount n
  simp only [threadDistributeValues, if_neg (show ¬n < valuesCount % n by omega)]
  rw [Nat.mul_comm]
  exact hdiv

/-- The indices of a range are in bounds of a slice that is taken with it. -/
def Rng1.InBounds (rng : Rng1) (length : ℕ) : Prop := rng.start ≤ rng.stop ∧ rng.stop ≤ length

def Rng1.Has (rng : Rng1) (k : ℕ) : Prop := rng.start ≤ k ∧ k < rng.stop

def Rng1.length (rng : Rng1) : ℕ := rng.stop - rng.start

theorem monotone_threadDistributeValues_start (valuesCount n : ℕ) :
    Monotone fun i => (threadDistributeValues valuesCount i n).start :=
  monotone_nat_of_le_succ fun i => threadDistributeValues_start_le valuesCount i n

theorem threadDistributeValues_inBounds (valuesCount : ℕ) {i n : ℕ} (hi : i < n) :
    (threadDistributeValues valuesCount i n).InBounds valuesCount := by
  have hmono := monotone_threadDistributeValues_start valuesCount n
  refine ⟨?_, ?_⟩
  · rw [threadDistributeValues_stop]
    exact threadDistributeValues_start_le valuesCount i n
  · calc (threadDistributeValues valuesCount i n).stop
        = (threadDistributeValues valuesCount (i + 1) n).start :=
          threadDistributeValues_stop valuesCount i n
      _ ≤ (threadDistributeValues valuesCount n n).start := hmono hi
      _ = valuesCount := threadDistributeValues_start_count valuesCount (by omega)

/-- A thread has the quotient, or one value more. -/
theorem threadDistributeValues_length (valuesCount i n : ℕ) :
    (threadDistributeValues valuesCount i n).length =
      valuesCount / n + if i < valuesCount % n then 1 else 0 := by
  simp only [Rng1.length, threadDistributeValues]
  rw [Nat.add_assoc, Nat.add_sub_cancel_left]

/-- Only one thread has a value. -/
theorem threadDistributeValues_unique {valuesCount i j n k : ℕ}
    (hi : (threadDistributeValues valuesCount i n).Has k)
    (hj : (threadDistributeValues valuesCount j n).Has k) : i = j := by
  have hmono := monotone_threadDistributeValues_start valuesCount n
  -- the thread behind another one starts at the end of that one or later
  have hle : ∀ {i j}, (threadDistributeValues valuesCount i n).Has k →
      (threadDistributeValues valuesCount j n).Has k → i ≤ j := by
    intro i j hi hj
    by_contra hlt
    have hstart : (threadDistributeValues valuesCount (j + 1) n).start ≤
        (threadDistributeValues valuesCount i n).start := hmono (by omega)
    rw [← threadDistributeValues_stop] at hstart
    have := hi.1
    have := hj.2
    omega
  exact le_antisymm (hle hi hj) (hle hj hi)

/-- Some thread among the first `m` has a value that is before their end. -/
theorem exists_threadDistributeValues_has {valuesCount n m k : ℕ}
    (hk : k < (threadDistributeValues valuesCount m n).start) :
    ∃ i < m, (threadDistributeValues valuesCount i n).Has k := by
  induction m with
  | zero =>
    rw [threadDistributeValues_start_zero] at hk
    omega
  | succ m ih =>
    rcases Nat.lt_or_ge k (threadDistributeValues valuesCount m n).start with h | h
    · obtain ⟨i, hi, hhas⟩ := ih h
      exact ⟨i, by omega, hhas⟩
    · rw [← threadDistributeValues_stop] at hk
      exact ⟨m, by omega, h, hk⟩

/-- The ranges of the threads are consecutive, from 0 to the number of values. Each value has
its one thread, the slices are in bounds, and no thread has two values more than another. What
`thread_distribute_values` computes on the way stays within the number of values. -/
theorem threadDistributeValues_partition (valuesCount : ℕ) {n : ℕ} (hn : 0 < n) :
    (threadDistributeValues valuesCount 0 n).start = 0 ∧
    (threadDistributeValues valuesCount (n - 1) n).stop = valuesCount ∧
    (∀ i, (threadDistributeValues valuesCount i n).stop =
      (threadDistributeValues valuesCount (i + 1) n).start) ∧
    (∀ k < valuesCount, ∃! i, i < n ∧ (threadDistributeValues valuesCount i n).Has k) ∧
    (∀ i < n, (threadDistributeValues valuesCount i n).InBounds valuesCount) ∧
    (∀ i < n, ∀ j < n, (threadDistributeValues valuesCount i n).length ≤
      (threadDistributeValues valuesCount j n).length + 1) ∧
    ∀ i < n, valuesCount / n * i ≤ valuesCount := by
  refine ⟨threadDistributeValues_start_zero valuesCount n, ?_,
    fun i => threadDistributeValues_stop valuesCount i n, fun k hk => ?_,
    fun i hi => threadDistributeValues_inBounds valuesCount hi, fun i _ j _ => ?_,
    fun i hi => ?_⟩
  · rw [threadDistributeValues_stop, Nat.sub_add_cancel hn]
    exact threadDistributeValues_start_count valuesCount hn
  · rw [← threadDistributeValues_start_count valuesCount hn] at hk
    obtain ⟨i, hi, hhas⟩ := exists_threadDistributeValues_has hk
    exact ⟨i, ⟨hi, hhas⟩, fun j hj => threadDistributeValues_unique hj.2 hhas⟩
  · rw [threadDistributeValues_length, threadDistributeValues_length]
    split_ifs <;> omega
  · calc valuesCount / n * i ≤ valuesCount / n * n := Nat.mul_le_mul_left _ hi.le
      _ ≤ valuesCount := Nat.div_mul_le_self valuesCount n

theorem threadDistributeValues_partition_seven :
    (0 < 3) ∧ (threadDistributeValues 7 2 3).stop = 7 ∧
      ∃! i, i < 3 ∧ (threadDistributeValues 7 i 3).Has 4 :=
  ⟨by decide, (threadDistributeValues_partition 7 (by decide : 0 < 3)).2.1,
    (threadDistributeValues_partition 7 (by decide : 0 < 3)).2.2.2.1 4 (by decide)⟩

/-- The first `k` threads together have the values before the first one of thread `k`. -/
theorem flatMap_rng1Slice {α : Type} (s : List α) (n k : ℕ) :
    (List.range k).flatMap (fun i => rng1Slice (threadDistributeValues s.length i n) s) =
      s.take (threadDistributeValues s.length k n).start := by
  induction k with
  | zero => simp [threadDistributeValues_start_zero]
  | succ k ih =>
    have hle := threadDistributeValues_start_le s.length k n
    rw [List.range_succ, List.flatMap_append, ih, List.flatMap_singleton, rng1Slice,
      threadDistributeValues_stop]
    conv_lhs =>
      enter [1]
      rw [← Nat.min_eq_left hle, ← List.take_take]
    exact List.take_append_drop _ _

/-- The slices of the lanes, one after the other, are the whole slice. -/
theorem flatMap_laneRangeSlice {α : Type} {n : ℕ} (hn : 0 < n) (s : List α) :
    (List.finRange n).flatMap (fun lane => laneRangeSlice lane s) = s := by
  have h := flatMap_rng1Slice s n n
  rw [threadDistributeValues_start_count _ hn, List.take_length] at h
  rw [← List.map_coe_finRange_eq_range, List.flatMap_map] at h
  exact h

/-- The indices of a range. -/
def Rng1.indices (rng : Rng1) : List ℕ := List.range' rng.start (rng.stop - rng.start)

theorem flatMap_indices (valuesCount n k : ℕ) :
    (List.range k).flatMap (fun i => (threadDistributeValues valuesCount i n).indices) =
      List.range (threadDistributeValues valuesCount k n).start := by
  induction k with
  | zero => simp [threadDistributeValues_start_zero]
  | succ k ih =>
    have hle := threadDistributeValues_start_le valuesCount k n
    have happend := List.range'_append_1 (s := 0)
      (m := (threadDistributeValues valuesCount k n).start)
      (n := (threadDistributeValues valuesCount (k + 1) n).start -
        (threadDistributeValues valuesCount k n).start)
    rw [Nat.zero_add, Nat.add_sub_cancel' hle] at happend
    rw [List.range_succ, List.flatMap_append, ih, List.flatMap_singleton, Rng1.indices,
      threadDistributeValues_stop, List.range_eq_range', List.range_eq_range']
    exact happend

/-- The lanes' ranges of indices, one after the other, are all indices. -/
theorem flatMap_laneRange_indices {n : ℕ} (hn : 0 < n) (valuesCount : ℕ) :
    (List.finRange n).flatMap (fun lane => (laneRange lane valuesCount).indices) =
      List.range valuesCount := by
  have h := flatMap_indices valuesCount n n
  rw [threadDistributeValues_start_count _ hn, ← List.map_coe_finRange_eq_range,
    List.flatMap_map] at h
  exact h

/-! ### Handing a value to the other lanes -/

section SyncValue

variable {σ W : Type}

/-- The memory of a group of lanes, inside their shared state. -/
structure SharedMemory (σ W : Type) where
  read : σ → W
  write : σ → W → σ
  read_write : ∀ s w, read (write s w) = w

/-- The second half: the source lane has its value, every other lane copies it. -/
def laneTakeValue {n : ℕ} (mem : SharedMemory σ W) (lane : Fin n) (value : W)
    (srcLaneIdx : ℕ) (k : W → Prog σ) : Prog σ :=
  if lane.val = srcLaneIdx then .sync (k value)
  else .act fun s => .returned (s, .sync (k (mem.read s)))

/-- The source lane copies its value to the memory, everybody else copies it from there, and
both copies end at the barrier. `k` is what follows, with the value. -/
def laneSyncValue {n : ℕ} (mem : SharedMemory σ W) (lane : Fin n) (value : W)
    (srcLaneIdx : ℕ) (k : W → Prog σ) : Prog σ :=
  if lane.val = srcLaneIdx then
    .act fun s =>
      .returned (mem.write s value, .sync (laneTakeValue mem lane value srcLaneIdx k))
  else .sync (laneTakeValue mem lane value srcLaneIdx k)

/-- A lane keeps an invariant through `lane_sync_value` when the source lane may write its
value, and every other lane can go on with whatever the memory may hold. -/
theorem laneSyncValue_keeps {n : ℕ} {mem : SharedMemory σ W} {I : σ → Prop} {G : σ → σ → Prop}
    (hG : ∀ s, G s s) {lane : Fin n} {value : W} {srcLaneIdx : ℕ} {k : W → Prog σ}
    (hwrite : lane.val = srcLaneIdx →
      ∀ s, I s → I (mem.write s value) ∧ G s (mem.write s value))
    (hsrc : lane.val = srcLaneIdx → (k value).Keeps I G)
    (hother : lane.val ≠ srcLaneIdx → ∀ s, I s → (k (mem.read s)).Keeps I G) :
    (laneSyncValue mem lane value srcLaneIdx k).Keeps I G := by
  have htake : (laneTakeValue mem lane value srcLaneIdx k).Keeps I G := by
    rw [laneTakeValue]
    split
    · rename_i hlane
      exact .sync (hsrc hlane)
    · rename_i hlane
      refine .act (fun s s' q hs h => ?_) (fun s s' q hs h => ?_)
      · obtain ⟨rfl, rfl⟩ := Prod.mk.inj (Outcome.returned.inj h)
        exact ⟨hs, hG s⟩
      · obtain ⟨rfl, rfl⟩ := Prod.mk.inj (Outcome.returned.inj h)
        exact .sync (hother hlane s hs)
  rw [laneSyncValue]
  split
  · rename_i hlane
    refine .act (fun s s' q hs h => ?_) (fun s s' q hs h => ?_)
    · obtain ⟨rfl, rfl⟩ := Prod.mk.inj (Outcome.returned.inj h)
      exact hwrite hlane s hs
    · obtain ⟨rfl, rfl⟩ := Prod.mk.inj (Outcome.returned.inj h)
      exact .sync htake
  · exact .sync htake

variable {n : ℕ} {mem : SharedMemory σ W} {v : Fin n → W} {k : Fin n → W → Prog σ} {s t : σ}

/-- Only the source lane writes. -/
theorem laneSyncValue_other (src : Fin n) {i : Fin n} (hi : i ≠ src) :
    laneSyncValue mem i (v i) src (k i) = .sync (laneTakeValue mem i (v i) src (k i)) := by
  rw [laneSyncValue, if_neg fun h => hi (Fin.ext h)]

/-- Behind the write all lanes wait. -/
theorem update_laneSyncValue (src : Fin n) :
    Function.update (fun i => laneSyncValue mem i (v i) src (k i)) src
      (.sync (laneTakeValue mem src (v src) src (k src))) =
      fun i => .sync (laneTakeValue mem i (v i) src (k i)) := by
  funext i
  rcases eq_or_ne i src with rfl | hi
  · rw [Function.update_self]
  · rw [Function.update_of_ne hi, laneSyncValue_other src hi]

theorem looks_laneTakeValue (src : Fin n) (hv : mem.read s = v src) (i : Fin n) :
    Looks s (laneTakeValue mem i (v i) src (k i)) (.sync (k i (v src))) := by
  refine ⟨trivial, ?_⟩
  rw [laneTakeValue]
  split
  · rename_i hi
    obtain rfl := Fin.ext hi
    exact Or.inl rfl
  · exact Or.inr ⟨_, rfl, by rw [hv]⟩

/-- Once the value is in the memory, every lane goes on with it. -/
theorem finish_laneTakeValue (src : Fin n)
    (h : Finish ⟨s, fun i => laneTakeValue mem i (v i) src (k i)⟩ t)
    (hv : v src = mem.read s) : Finish ⟨s, fun i => k i (mem.read s)⟩ t := by
  rw [← hv]
  exact h.looks (Nat.lt_of_le_of_lt (Nat.zero_le _) src.isLt) (looks_laneTakeValue src hv.symm)

/-- Behind `lane_sync_value` every lane goes on with the value of the source lane, which is
also what the shared memory holds. -/
theorem finish_laneSyncValue (src : Fin n)
    (h : Finish ⟨s, fun i => laneSyncValue mem i (v i) src (k i)⟩ t) :
    Finish ⟨mem.write s (v src), fun i => k i (v src)⟩ t := by
  have hn : 0 < n := Nat.lt_of_le_of_lt (Nat.zero_le _) src.isLt
  obtain ⟨s', q, hact, hfin⟩ := h.act (j := src) (by rw [laneSyncValue, if_pos rfl])
    fun i hi => by rw [laneSyncValue_other src hi]; trivial
  obtain ⟨rfl, rfl⟩ := Prod.mk.inj (Outcome.returned.inj hact)
  have hrel := hfin.release (k := fun i => laneTakeValue mem i (v i) src (k i)) hn
    (congrFun (update_laneSyncValue src))
  have htake := finish_laneTakeValue src hrel (mem.read_write _ _).symm
  rwa [mem.read_write] at htake

/-- The lanes stay in step through `lane_sync_value` when they do so behind it, each with the
value of the source lane. -/
theorem steady_laneSyncValue {Q : Config σ n → Prop} (src : Fin n)
    (hfirst : Q ⟨mem.write s (v src), fun i => .sync (laneTakeValue mem i (v i) src (k i))⟩)
    (hsecond : Q ⟨mem.write s (v src), fun i => .sync (k i (v src))⟩)
    (h : Steady Q ⟨mem.write s (v src), fun i => k i (v src)⟩) :
    Steady Q ⟨s, fun i => laneSyncValue mem i (v i) src (k i)⟩ := by
  have hn : 0 < n := Nat.lt_of_le_of_lt (Nat.zero_le _) src.isLt
  have htake := Steady.looks hn (looks_laneTakeValue src (mem.read_write s (v src))) hsecond h
  refine Steady.act (j := src) (by rw [laneSyncValue, if_pos rfl])
    (fun i hi => by rw [laneSyncValue_other src hi]; trivial) rfl ?_
  rw [update_laneSyncValue]
  exact htake.sync hn hfirst

/-- The lanes can go through `lane_sync_value`. -/
theorem run_laneSyncValue (mem : SharedMemory σ W) (s : σ) (v : Fin n → W)
    (k : Fin n → W → Prog σ) (src : Fin n) :
    Run ⟨s, fun i => laneSyncValue mem i (v i) src (k i)⟩
      ⟨mem.write s (v src), fun i => k i (v src)⟩ := by
  have hwrite : Act ⟨s, fun i => laneSyncValue mem i (v i) src (k i)⟩
      ⟨mem.write s (v src), fun i => .sync (laneTakeValue mem i (v i) src (k i))⟩ := by
    rw [← update_laneSyncValue]
    exact .mk src _ (by rw [laneSyncValue, if_pos rfl]) rfl
  have htake := Acts.of_looks (looks_laneTakeValue (k := k) src (mem.read_write s (v src)))
  refine Relation.ReflTransGen.head (.act hwrite) ?_
  refine Relation.ReflTransGen.head (.release fun _ => rfl) ?_
  exact htake.run.tail (.release fun _ => rfl)

/-- Every lane is inside a call of `lane_sync_value`: lane `i` holds the value `v i` and goes
on with `k i`. It stands in front of its first barrier or waits at it. -/
structure InCall (mem : SharedMemory σ W) (src : Fin n) (v : Fin n → W)
    (k : Fin n → W → Prog σ) (c : Config σ n) : Prop where
  lanes : ∀ i, c.lanes i = laneSyncValue mem i (v i) src (k i) ∨
    c.lanes i = .sync (laneTakeValue mem i (v i) src (k i))
  written : c.lanes src = .sync (laneTakeValue mem src (v src) src (k src)) →
    mem.read c.shared = v src

/-- The first half of a call keeps the lanes inside it. -/
theorem InCall.acts {src : Fin n} {c d : Config σ n} (h : InCall mem src v k c)
    (hacts : Acts c d) : InCall mem src v k d := by
  induction hacts with
  | refl => exact h
  | tail _ hact ih =>
    obtain ⟨i, f, hp, hf⟩ := hact
    -- only the source lane acts
    have hi : i = src := by
      by_contra hne
      have hval : i.val ≠ src.val := fun h => hne (Fin.ext h)
      rcases ih.lanes i with hi | hi
      · rw [laneSyncValue, if_neg hval] at hi
        cases hp.symm.trans hi
      · cases hp.symm.trans hi
    subst hi
    rcases ih.lanes i with hi | hi
    · rw [laneSyncValue, if_pos rfl] at hi
      obtain rfl := Prog.act.inj (hp.symm.trans hi)
      obtain ⟨rfl, rfl⟩ := Prod.mk.inj (Outcome.returned.inj hf)
      refine ⟨fun j => ?_, fun _ => mem.read_write _ _⟩
      rcases eq_or_ne j i with rfl | hj
      · exact Or.inr (Function.update_self ..)
      · simp only [Function.update_of_ne hj]
        exact ih.lanes j
    · cases hp.symm.trans hi

/-- Behind the call, at its second barrier, every lane goes on with the value of the source
lane, whatever the memory held before. -/
theorem InCall.broadcast {src : Fin n} {c : Config σ n} (h : InCall mem src v k c)
    {s₁ s₂ : σ} {p₁ k₁ p₂ k₂ : Fin n → Prog σ} (h₁ : Acts c ⟨s₁, p₁⟩)
    (hp₁ : ∀ i, p₁ i = .sync (k₁ i)) (h₂ : Acts ⟨s₁, k₁⟩ ⟨s₂, p₂⟩)
    (hp₂ : ∀ i, p₂ i = .sync (k₂ i)) : ∀ i, k₂ i = k i (v src) := by
  have hcall := h.acts h₁
  have hk₁ : ∀ i, k₁ i = laneTakeValue mem i (v i) src (k i) := by
    intro i
    have hi := (hp₁ i).symm
    rcases hcall.lanes i with hlane | hlane
    · rw [show p₁ i = _ from hlane, laneSyncValue] at hi
      split at hi
      · cases hi
      · exact Prog.sync.inj hi
    · exact Prog.sync.inj (hi.trans hlane)
  have hread : mem.read s₁ = v src := hcall.written ((hp₁ src).trans (by rw [hk₁]))
  have hlooks : ∀ i, Looks s₁ (k₁ i) (.sync (k i (v src))) := fun i => by
    rw [hk₁]
    exact looks_laneTakeValue src hread i
  obtain ⟨-, rfl⟩ := h₂.looks hlooks fun i => by simp [hp₂ i]
  exact fun i => (Prog.sync.inj (hp₂ i)).symm

end SyncValue

end Wasim
