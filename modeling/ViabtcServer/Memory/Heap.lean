import Mathlib.Logic.Function.Basic
import Mathlib.Data.Option.Basic

/-!
# Allocated cells

The cells a program has allocated, by their addresses. A pointer is an address or
`NULL`. What C leaves undefined, reading or writing where nothing is allocated,
has no result here.
-/

namespace ViabtcServer.Memory

universe u v w

/-- The allocated cells. -/
abbrev Heap (ρ : Type u) (N : Type v) : Type (max u v) :=
  ρ → Option N

namespace Heap

variable {ρ : Type u} {N : Type v}

/-- Nothing is allocated. -/
def empty : Heap ρ N :=
  fun _ => none

/-- What a pointer points to. -/
def load (heap : Heap ρ N) (pointer : Option ρ) : Option N :=
  pointer.bind heap

variable [DecidableEq ρ]

/-- A new cell. -/
def alloc (heap : Heap ρ N) (a : ρ) (cell : N) : Heap ρ N :=
  Function.update heap a (some cell)

/-- The cell a pointer points to is changed, if there is one. -/
def amend (heap : Heap ρ N) (pointer : Option ρ) (change : N → N) : Heap ρ N :=
  match pointer with
  | some a => Function.update heap a ((heap a).map change)
  | none => heap

/-- Change the cell a pointer points to. -/
def assign (heap : Heap ρ N) (pointer : Option ρ) (change : N → N) : Option (Heap ρ N) :=
  (heap.load pointer).map fun _ => heap.amend pointer change

/-- `free`. -/
def free (heap : Heap ρ N) (a : ρ) : Option (Heap ρ N) :=
  (heap a).map fun _ => Function.update heap a none

end Heap

section Field

variable {ρ : Type u} {N : Type v} {β : Type w} [DecidableEq ρ]

/-- One field of all cells. -/
def fieldOf (field : N → β) (heap : Heap ρ N) : ρ → Option β :=
  fun a => (heap a).map field

variable {field : N → β} {heap : Heap ρ N} {a : ρ} {cell : N} {pointer : Option ρ}
  {change : N → N}

omit [DecidableEq ρ] in
theorem fieldOf_of_eq (found : heap a = some cell) : fieldOf field heap a = some (field cell) := by
  unfold fieldOf
  rw [found]
  rfl

omit [DecidableEq ρ] in
theorem exists_cell {value : β} (found : fieldOf field heap a = some value) :
    ∃ cell, heap a = some cell ∧ field cell = value :=
  Option.map_eq_some_iff.mp found

theorem fieldOf_update (content : Option N) :
    fieldOf field (Function.update heap a content) =
      Function.update (fieldOf field heap) a (content.map field) := by
  funext b
  unfold fieldOf
  rcases eq_or_ne b a with rfl | differ
  · rw [Function.update_self, Function.update_self]
  · rw [Function.update_of_ne differ, Function.update_of_ne differ]

theorem fieldOf_alloc : fieldOf field (heap.alloc a cell) =
    Function.update (fieldOf field heap) a (some (field cell)) :=
  fieldOf_update _

/-- A field that is not changed. -/
theorem fieldOf_amend_same (same : ∀ cell, field (change cell) = field cell) :
    fieldOf field (heap.amend pointer change) = fieldOf field heap := by
  cases pointer with
  | none => rfl
  | some a =>
      have content : ((heap a).map change).map field = fieldOf field heap a := by
        unfold fieldOf
        rw [Option.map_map]
        exact congrArg (fun f => (heap a).map f) (funext same)
      unfold Heap.amend
      rw [fieldOf_update, content, Function.update_eq_self]

/-- A field that is set. -/
theorem fieldOf_amend_set {value : β} (set : ∀ cell, field (change cell) = value)
    (found : heap a ≠ none) : fieldOf field (heap.amend (some a) change) =
      Function.update (fieldOf field heap) a (some value) := by
  rcases Option.ne_none_iff_exists'.mp found with ⟨cell, eq⟩
  unfold Heap.amend
  rw [fieldOf_update, eq, Option.map_some, Option.map_some, set]

/-- Nothing is allocated or freed. -/
theorem amend_eq_none : heap.amend pointer change a = none ↔ heap a = none := by
  cases pointer with
  | none => rfl
  | some b =>
      change Function.update heap b ((heap b).map change) a = none ↔ heap a = none
      rcases eq_or_ne a b with rfl | differ
      · rw [Function.update_self, Option.map_eq_none_iff]
      · rw [Function.update_of_ne differ]

theorem amend_of_ne (other : pointer ≠ some a) : heap.amend pointer change a = heap a := by
  cases pointer with
  | none => rfl
  | some b => exact Function.update_of_ne (fun same => other (congrArg some same.symm)) _ _

theorem assign_eq (found : heap a ≠ none) :
    heap.assign (some a) change = some (heap.amend (some a) change) := by
  rcases Option.ne_none_iff_exists'.mp found with ⟨cell, eq⟩
  unfold Heap.assign Heap.load
  rw [Option.bind_some, eq]
  rfl

theorem free_eq (found : heap a ≠ none) : heap.free a = some (Function.update heap a none) := by
  rcases Option.ne_none_iff_exists'.mp found with ⟨cell, eq⟩
  unfold Heap.free
  rw [eq]
  rfl

end Field

end ViabtcServer.Memory
