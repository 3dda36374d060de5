import Mathlib.Data.List.TakeWhile
import Mathlib.Data.List.Perm.Basic
import Mathlib.Order.Defs.LinearOrder
import Mathlib.Data.Set.Defs
import Mathlib.Order.Lattice

/-!
# Ordered lists searched by a comparison

The bottom level of a skiplist, with the searches of `skiplist_insert`,
`skiplist_find` and `skiplist_delete` on it. A node is identified by its
element. The comparison is a parameter; the lemmas ask only that on the
elements present it ranks them by a key of some linear order.
-/

namespace ViabtcServer.Container

universe u v

variable {α : Type u}

/-- The walk of `skiplist_insert` and `skiplist_find`: forward while the next
element does not exceed `value`. -/
def walk (cmp : α → α → ℤ) (list : List α) (value : α) : List α :=
  list.takeWhile fun x => cmp x value ≤ 0

/-- `skiplist_insert`; `none` is the `NULL` of an element already present. -/
def skiplistInsert (cmp : α → α → ℤ) (list : List α) (value : α) : Option (List α) :=
  let inserted := walk cmp list value ++ value :: list.dropWhile fun x => cmp x value ≤ 0
  match (walk cmp list value).getLast? with
  | some node => if cmp node value = 0 then none else some inserted
  | none => some inserted

/-- `skiplist_find`. -/
def skiplistFind (cmp : α → α → ℤ) (list : List α) (value : α) : Option α :=
  match (walk cmp list value).getLast? with
  | some node => if cmp node value = 0 then some node else none
  | none => none

/-- `skiplist_delete`: the node reached below `node` is unlinked if it is `node`. -/
def skiplistDelete [DecidableEq α] (cmp : α → α → ℤ) (list : List α) (node : α) : List α :=
  match list.dropWhile fun x => cmp x node < 0 with
  | [] => list
  | x :: rest =>
      if x = node then (list.takeWhile fun x => cmp x node < 0) ++ rest else list

/-- `skiplist_get_iterator`: the iterator stands at the first node. -/
def skiplistGetIterator (list : List α) : Option α :=
  list.head?

/-- `forward[0]` of `node`: the position `skiplist_next` leaves in the iterator
when it returns `node`. -/
def skiplistForward [DecidableEq α] : List α → α → Option α
  | [], _ => none
  | x :: rest, node => if x = node then rest.head? else skiplistForward rest node

/-! ## Ranked comparisons -/

section Ranked

variable {β : Type v} [LinearOrder β]

/-- On `s`, `cmp` compares elements by their `key`. -/
structure RanksOn (cmp : α → α → ℤ) (key : α → β) (s : Set α) : Prop where
  neg_iff : ∀ {x y}, x ∈ s → y ∈ s → (cmp x y < 0 ↔ key x < key y)
  zero_iff : ∀ {x y}, x ∈ s → y ∈ s → (cmp x y = 0 ↔ key x = key y)

/-- Strictly increasing keys. -/
def SortedBy (key : α → β) (list : List α) : Prop :=
  list.Pairwise fun x y => key x < key y

variable {cmp : α → α → ℤ} {key : α → β} {s : Set α} {list : List α} {value : α}

theorem RanksOn.nonpos_iff (ranks : RanksOn cmp key s) {x y : α} (hx : x ∈ s) (hy : y ∈ s) :
    cmp x y ≤ 0 ↔ key x ≤ key y := by
  rw [Int.le_iff_lt_or_eq, le_iff_lt_or_eq, ranks.neg_iff hx hy, ranks.zero_iff hx hy]

theorem SortedBy.nodup (sorted : SortedBy key list) : list.Nodup :=
  List.Pairwise.imp (fun lt => by rintro rfl; exact lt_irrefl _ lt) sorted

/-- Around a member, a sorted list splits into what lies below and above it. -/
theorem SortedBy.split_mem (sorted : SortedBy key list) (mem : value ∈ list) :
    ∃ below above, list = below ++ value :: above ∧
      (∀ x ∈ below, key x < key value) ∧ ∀ x ∈ above, key value < key x := by
  obtain ⟨below, above, rfl⟩ := List.append_of_mem mem
  obtain ⟨_, tail, cross⟩ := List.pairwise_append.mp sorted
  exact ⟨below, above, rfl, fun x hx => cross x hx value List.mem_cons_self,
    (List.pairwise_cons.mp tail).1⟩

/-- At a key not present, a sorted list splits into what lies below and above it. -/
theorem SortedBy.split_fresh (sorted : SortedBy key list)
    (fresh : ∀ x ∈ list, key x ≠ key value) :
    ∃ below above, list = below ++ above ∧
      (∀ x ∈ below, key x < key value) ∧ ∀ x ∈ above, key value < key x := by
  induction list with
  | nil => exact ⟨[], [], rfl, by simp, by simp⟩
  | cons x rest ih =>
      obtain ⟨first, tail⟩ := List.pairwise_cons.mp sorted
      rcases lt_or_gt_of_ne (fresh x List.mem_cons_self) with lt | gt
      · obtain ⟨below, above, rfl, hb, ha⟩ :=
          ih tail fun y hy => fresh y (List.mem_cons_of_mem x hy)
        refine ⟨x :: below, above, rfl, ?_, ha⟩
        simpa using ⟨lt, hb⟩
      · refine ⟨[], x :: rest, rfl, by simp, ?_⟩
        simpa using ⟨gt, fun y hy => gt.trans (first y hy)⟩

private theorem takeWhile_split (p : α → Bool) (below above : List α)
    (hb : ∀ x ∈ below, p x = true) (ha : ∀ x ∈ above, p x = false) :
    (below ++ above).takeWhile p = below ∧ (below ++ above).dropWhile p = above := by
  have stop : above.takeWhile p = [] ∧ above.dropWhile p = above := by
    cases above with
    | nil => simp
    | cons x rest => simp [ha x List.mem_cons_self]
  rw [List.takeWhile_append_of_pos hb, List.dropWhile_append_of_pos hb, stop.1, stop.2]
  simp

/-! ## The operations on sorted lists -/

theorem skiplistFind_of_mem (ranks : RanksOn cmp key s) (sorted : SortedBy key list)
    (inside : ∀ x ∈ list, x ∈ s) (mem : value ∈ list) :
    skiplistFind cmp list value = some value := by
  obtain ⟨below, above, rfl, hb, ha⟩ := sorted.split_mem mem
  have position : walk cmp (below ++ value :: above) value = below ++ [value] := by
    have := takeWhile_split (fun x => decide (cmp x value ≤ 0))
      (below ++ [value]) above ?_ ?_
    · simpa [walk] using this.1
    · intro x hx
      have member : x ∈ below ++ value :: above := by
        simp only [List.mem_append, List.mem_singleton] at hx
        rcases hx with hx | rfl <;> simp [*]
      have le : key x ≤ key value := by
        simp only [List.mem_append, List.mem_singleton] at hx
        rcases hx with hx | rfl
        · exact (hb x hx).le
        · exact le_rfl
      simpa using (ranks.nonpos_iff (inside x member) (inside value mem)).mpr le
    · intro x hx
      have member : x ∈ below ++ value :: above := by simp [hx]
      have := (ranks.nonpos_iff (inside x member) (inside value mem)).not.mpr
        (not_le.mpr (ha x hx))
      simpa using this
  have zero := (ranks.zero_iff (inside value mem) (inside value mem)).mpr rfl
  simp [skiplistFind, position, zero]

/-- Deleting a member unlinks exactly it. -/
theorem skiplistDelete_of_mem [DecidableEq α] (ranks : RanksOn cmp key s)
    (sorted : SortedBy key list) (inside : ∀ x ∈ list, x ∈ s) (mem : value ∈ list) :
    skiplistDelete cmp list value = list.erase value := by
  have nodup := sorted.nodup
  obtain ⟨below, above, rfl, hb, ha⟩ := sorted.split_mem mem
  have split := takeWhile_split (fun x => decide (cmp x value < 0)) below (value :: above) ?_ ?_
  · have absent : value ∉ below := by
      intro member
      exact lt_irrefl _ (hb value member)
    simp only [skiplistDelete, split.1, split.2, if_true]
    rw [List.erase_append_right _ absent, List.erase_cons_head]
  · intro x hx
    have member : x ∈ below ++ value :: above := by simp [hx]
    simpa using (ranks.neg_iff (inside x member) (inside value mem)).mpr (hb x hx)
  · intro x hx
    have le : key value ≤ key x := by
      rcases List.mem_cons.mp hx with rfl | above
      · exact le_rfl
      · exact (ha x above).le
    have member : x ∈ below ++ value :: above := by simp [List.mem_cons.mp hx]
    have := (ranks.neg_iff (inside x member) (inside value mem)).not.mpr (not_lt.mpr le)
    simpa using this

/-- Inserting a value with a fresh key succeeds and keeps the order. -/
theorem skiplistInsert_of_fresh (ranks : RanksOn cmp key s) (sorted : SortedBy key list)
    (inside : ∀ x ∈ list, x ∈ s) (member : value ∈ s)
    (fresh : ∀ x ∈ list, key x ≠ key value) :
    ∃ inserted, skiplistInsert cmp list value = some inserted ∧
      inserted.Perm (value :: list) ∧ SortedBy key inserted := by
  obtain ⟨below, above, rfl, hb, ha⟩ := sorted.split_fresh fresh
  have split := takeWhile_split (fun x => decide (cmp x value ≤ 0)) below above ?_ ?_
  · refine ⟨below ++ value :: above, ?_, List.perm_middle, ?_⟩
    · unfold skiplistInsert walk
      rw [split.1, split.2]
      cases last : below.getLast? with
      | none => rfl
      | some node =>
          have hnode : node ∈ below := List.mem_of_getLast? last
          have inList : node ∈ below ++ above := by simp [hnode]
          have differ := (ranks.zero_iff (inside node inList) member).not.mpr
            (fresh node inList)
          simp [differ]
    · obtain ⟨first, second, cross⟩ := List.pairwise_append.mp sorted
      refine List.pairwise_append.mpr ⟨first, List.pairwise_cons.mpr ⟨ha, second⟩, ?_⟩
      intro x hx y hy
      rcases List.mem_cons.mp hy with rfl | hy
      · exact hb x hx
      · exact cross x hx y hy
  · intro x hx
    have inList : x ∈ below ++ above := by simp [hx]
    simpa using (ranks.nonpos_iff (inside x inList) member).mpr (hb x hx).le
  · intro x hx
    have inList : x ∈ below ++ above := by simp [hx]
    have := (ranks.nonpos_iff (inside x inList) member).not.mpr (not_le.mpr (ha x hx))
    simpa using this

/-- Two sorted lists with the same elements are equal. -/
theorem SortedBy.eq_of_perm {other : List α} (sorted : SortedBy key list)
    (sorted' : SortedBy key other) (perm : list.Perm other) : list = other :=
  perm.eq_of_pairwise (fun _ _ _ _ lt gt => (lt_asymm lt gt).elim) sorted sorted'

theorem SortedBy.sublist {sub : List α} (sorted : SortedBy key list) (h : sub.Sublist list) :
    SortedBy key sub :=
  List.Pairwise.sublist h sorted

/-- Sortedness depends only on the keys of the elements present. -/
theorem SortedBy.congr {key' : α → β} (sorted : SortedBy key list)
    (same : ∀ x ∈ list, key' x = key x) : SortedBy key' list := by
  refine List.Pairwise.imp_of_mem ?_ sorted
  intro x y hx hy lt
  rwa [same x hx, same y hy]

end Ranked

/-! ## Iteration -/

/-- The node after `node` is the head of what follows it. -/
theorem skiplistForward_append [DecidableEq α] {before after : List α} {node : α}
    (absent : node ∉ before) :
    skiplistForward (before ++ node :: after) node = after.head? := by
  induction before with
  | nil => simp [skiplistForward]
  | cons x rest ih =>
      simp only [List.mem_cons, not_or] at absent
      obtain ⟨differ, absent⟩ := absent
      simp only [List.cons_append, skiplistForward]
      rw [if_neg (Ne.symm differ)]
      exact ih absent

end ViabtcServer.Container
