import Mathlib.Data.List.Perm.Subperm
import Mathlib.Tactic.Common

/-!
# Singly linked lists

A list of nodes that are linked by their addresses, with the first and the last of them and their
number. A node is allocated behind all others and its address is its index, so that one memory may
hold several lists. Pushing a value adds it to what the list stands for
(`LinkedList.Represents.push`).
-/

structure ListNode (α : Type) where
  value : α
  next : Option ℕ := none
  deriving DecidableEq, Repr

structure LinkedList where
  first : Option ℕ := none
  last : Option ℕ := none
  count : ℕ := 0
  last_isSome : first.isSome → last.isSome

namespace LinkedList

variable {α : Type} {nodes : List (ListNode α)} {list : LinkedList} {xs : List α}

def empty : LinkedList := ⟨none, none, 0, by simp⟩

/-- Links a node that is in memory to the end of the list. -/
def link (nodes : List (ListNode α)) (list : LinkedList) (node : ℕ) :
    List (ListNode α) × LinkedList :=
  let nodes := nodes.modify node ({ · with next := none })
  if h : list.first.isSome then
    (nodes.modify (list.last.get (list.last_isSome h)) ({ · with next := some node }),
      ⟨list.first, some node, list.count + 1, fun _ => rfl⟩)
  else (nodes, ⟨some node, some node, list.count + 1, fun _ => rfl⟩)

/-- Memory with a new node behind all others. -/
def alloc (nodes : List (ListNode α)) (value : α) : List (ListNode α) := nodes ++ [⟨value, none⟩]

/-- Allocates a node and links it to the end of the list. -/
def push (nodes : List (ListNode α)) (list : LinkedList) (value : α) :
    List (ListNode α) × LinkedList :=
  link (alloc nodes value) list nodes.length

/-- The values from an address on, for at most `fuel` nodes. -/
def walk (nodes : List (ListNode α)) : ℕ → Option ℕ → List α
  | 0, _ => []
  | _ + 1, none => []
  | fuel + 1, some address =>
    match nodes[address]? with
    | none => []
    | some node => node.value :: walk nodes fuel node.next

/-- The values of a list. No list has more nodes than there are. -/
def toList (nodes : List (ListNode α)) (list : LinkedList) : List α :=
  walk nodes nodes.length list.first

/-! ### What a list stands for -/

/-- The nodes at the addresses hold the values, each linked to the next one. -/
def Links (nodes : List (ListNode α)) : List ℕ → List α → Prop
  | [], [] => True
  | a :: as, x :: xs => nodes[a]? = some ⟨x, as.head?⟩ ∧ Links nodes as xs
  | _, _ => False

structure RepresentsAt (nodes : List (ListNode α)) (list : LinkedList) (addresses : List ℕ)
    (xs : List α) : Prop where
  links : Links nodes addresses xs
  nodup : addresses.Nodup
  first_eq : list.first = addresses.head?
  last_eq : list.last = addresses.getLast?
  count_eq : list.count = xs.length

def Represents (nodes : List (ListNode α)) (list : LinkedList) (xs : List α) : Prop :=
  ∃ addresses, RepresentsAt nodes list addresses xs

theorem Links.lt {as : List ℕ} (h : Links nodes as xs) : ∀ a ∈ as, a < nodes.length := by
  induction as generalizing xs with
  | nil => exact nofun
  | cons a as ih =>
    rcases xs with _ | ⟨x, xs⟩
    · exact h.elim
    · exact List.forall_mem_cons.mpr ⟨(List.getElem?_eq_some_iff.mp h.1).1, ih h.2⟩

theorem Links.walk {as : List ℕ} {fuel : ℕ} (h : Links nodes as xs) (hfuel : as.length ≤ fuel) :
    walk nodes fuel as.head? = xs := by
  induction as generalizing xs fuel with
  | nil =>
    rcases xs with _ | ⟨x, xs⟩
    · rcases fuel with _ | fuel <;> rfl
    · exact h.elim
  | cons a as ih =>
    rcases xs with _ | ⟨x, xs⟩
    · exact h.elim
    · rcases fuel with _ | fuel
      · cases hfuel
      · have hrest := ih h.2 (Nat.le_of_succ_le_succ hfuel)
        simp only [List.head?_cons, LinkedList.walk, h.1, hrest]

/-- Walking from the first node to the one without a next gives the values. -/
theorem Represents.toList_eq (h : Represents nodes list xs) : toList nodes list = xs := by
  obtain ⟨as, h⟩ := h
  have hsub : as ⊆ List.range nodes.length := fun a ha => List.mem_range.mpr (h.links.lt a ha)
  have hlength := (List.subperm_of_subset h.nodup hsub).length_le
  rw [List.length_range] at hlength
  rw [toList, h.first_eq, h.links.walk hlength]

theorem Represents.count_eq (h : Represents nodes list xs) : list.count = xs.length := by
  obtain ⟨_, h⟩ := h
  exact h.count_eq

theorem represents_empty (nodes : List (ListNode α)) : Represents nodes empty [] :=
  ⟨[], trivial, List.nodup_nil, rfl, rfl, rfl⟩

theorem getElem?_alloc (value : α) {a : ℕ} (ha : a < nodes.length) :
    (alloc nodes value)[a]? = nodes[a]? := List.getElem?_append_left ha

theorem getElem?_alloc_length (nodes : List (ListNode α)) (value : α) :
    (alloc nodes value)[nodes.length]? = some ⟨value, none⟩ := List.getElem?_concat_length

/-- The last node is linked to the new one, and the nodes in front of it stay. -/
theorem Links.push {as : List ℕ} {last : ℕ} (h : Links nodes as xs) (hnodup : as.Nodup)
    (hlast : as.getLast? = some last) (value : α) :
    Links ((alloc nodes value).modify last ({ · with next := some nodes.length }))
      (as ++ [nodes.length]) (xs ++ [value]) := by
  induction as generalizing xs with
  | nil => cases hlast
  | cons a as ih =>
    rcases xs with _ | ⟨x, xs⟩
    · exact h.elim
    have ha : a < nodes.length := h.lt a List.mem_cons_self
    obtain ⟨hnotMem, hnodup⟩ := List.nodup_cons.mp hnodup
    rcases as with _ | ⟨b, as⟩
    · obtain rfl : a = last := by simpa using hlast
      rcases xs with _ | ⟨y, ys⟩
      · refine ⟨?_, ?_, trivial⟩
        · rw [List.getElem?_modify_eq, getElem?_alloc value ha, h.1]
          rfl
        · rw [List.getElem?_modify_ne _ _ (Nat.ne_of_lt ha), getElem?_alloc_length]
          rfl
      · exact h.2.elim
    · have hne : a ≠ last := by
        rintro rfl
        rw [List.getLast?_cons_cons] at hlast
        exact hnotMem (List.mem_of_getLast? hlast)
      refine ⟨?_, ih h.2 hnodup (by rwa [List.getLast?_cons_cons] at hlast)⟩
      rw [List.getElem?_modify_ne _ _ hne.symm, getElem?_alloc value ha, h.1]
      rfl

/-- A push adds a value at the end. -/
theorem Represents.push (h : Represents nodes list xs) (value : α) :
    Represents (push nodes list value).1 (push nodes list value).2 (xs ++ [value]) := by
  obtain ⟨as, h⟩ := h
  have hlt := h.links.lt
  have hfresh : (alloc nodes value).modify nodes.length ({ · with next := none }) =
      alloc nodes value := by
    refine List.ext_getElem? fun k => ?_
    by_cases hk : nodes.length = k
    · subst hk
      rw [List.getElem?_modify_eq, getElem?_alloc_length]
      rfl
    · rw [List.getElem?_modify_ne _ _ hk]
  have hcount : list.count + 1 = (xs ++ [value]).length := by
    rw [h.count_eq, List.length_append, List.length_singleton]
  rcases List.eq_nil_or_concat as with rfl | ⟨init, last, rfl⟩
  · have hfirst : ¬list.first.isSome := by rw [h.first_eq]; simp
    obtain rfl : xs = [] := by
      rcases xs with _ | ⟨x, xs⟩
      · rfl
      · exact h.links.elim
    simp only [LinkedList.push, link, dif_neg hfirst, hfresh]
    refine ⟨[nodes.length], ⟨?_, trivial⟩, List.pairwise_singleton _ _, rfl, rfl, hcount⟩
    rw [getElem?_alloc_length]
    rfl
  · rw [List.concat_eq_append] at h hlt
    have hlast : (init ++ [last]).getLast? = some last := List.getLast?_concat
    have hfirst : list.first.isSome := by
      rw [h.first_eq]
      simp
    have hget : list.last.get (list.last_isSome hfirst) = last := by
      simp only [h.last_eq, hlast, Option.get_some]
    simp only [LinkedList.push, link, dif_pos hfirst, hfresh, hget]
    refine ⟨init ++ [last] ++ [nodes.length], h.links.push h.nodup hlast value, ?_, ?_, ?_,
      hcount⟩
    · refine List.nodup_append.mpr ⟨h.nodup, List.pairwise_singleton _ _, fun a ha b hb => ?_⟩
      rw [List.mem_singleton.mp hb]
      exact Nat.ne_of_lt (hlt a ha)
    · rw [h.first_eq]
      rcases init with _ | ⟨a, init⟩ <;> rfl
    · exact List.getLast?_concat.symm

end LinkedList
