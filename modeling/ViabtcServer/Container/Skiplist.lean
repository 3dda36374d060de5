import ViabtcServer.Memory.Chain
import ViabtcServer.Memory.Iteration
import Mathlib.Data.Int.Basic
import Mathlib.Order.Basic
import Mathlib.Data.List.TakeWhile

/-!
# Skiplists on nodes

`ut_skiplist.c` with all its levels. A node has as many pointers as levels; the
header has the most and no value. Values are what the pointers point to, so the
copy that `dup` makes is the same value. An operation without a result has read
or written outside a node or through `NULL`, or has walked further than there
are nodes. The address of a new node and what `random` answers are arguments.
-/

namespace ViabtcServer.Container

open Memory

/-- `SKIPLIST_MAX_LEVEL`. -/
def skiplistMaxLevel : ℕ := 16

/-- `skiplist_node`. -/
structure SkipNode (ρ V : Type) where
  value : Option V
  forward : List (Option ρ)

/-- `skiplist_t` and its nodes. -/
structure Skiplist (ρ V : Type) where
  level : ℕ
  header : ρ
  len : ℕ
  nodes : Heap ρ (SkipNode ρ V)

variable {ρ V : Type}

/-- `node->forward[i]`. -/
def forwardAt (nodes : Heap ρ (SkipNode ρ V)) (i : ℕ) (node : ρ) : Option (Option ρ) :=
  (nodes node).bind fun cell => cell.forward[i]?

/-- The value of a node and the number of its levels. -/
def shapeOf (nodes : Heap ρ (SkipNode ρ V)) : ρ → Option (Option V × ℕ) :=
  fieldOf (fun cell => (cell.value, cell.forward.length)) nodes

/-- The loop of a search on one level: go on while the value of the next node passes. -/
def walkLevel (nodes : Heap ρ (SkipNode ρ V)) (pass : V → Bool) (i : ℕ) : ℕ → ρ → Option ρ
  | 0, _ => none
  | fuel + 1, node => (forwardAt nodes i node).bind fun
      | none => some node
      | some next => (nodes next).bind fun cell => cell.value.bind fun value =>
          if pass value then walkLevel nodes pass i fuel next else some node

variable [DecidableEq ρ]

/-- Assign `node->forward[i]`. -/
def setForward (nodes : Heap ρ (SkipNode ρ V)) (i : ℕ) (node : ρ) (pointer : Option ρ) :
    Option (Heap ρ (SkipNode ρ V)) :=
  (nodes node).bind fun cell =>
    if i < cell.forward.length then
      some (Function.update nodes node
        (some { cell with forward := cell.forward.set i pointer }))
    else none

namespace Skiplist

/-- `skiplist_create`. -/
def create (header : ρ) : Skiplist ρ V where
  level := 1
  header := header
  len := 0
  nodes := Heap.empty.alloc header ⟨none, List.replicate skiplistMaxLevel none⟩

/-- `skiplist_random_level`, where `random` falls below the bound `draws` times. -/
def randomLevel (draws : ℕ) : ℕ :=
  let level := 1 + draws
  if level < skiplistMaxLevel then level else skiplistMaxLevel

/-- The loop of a search over the levels, from the highest: the node it comes to, and `update`. -/
def search (list : Skiplist ρ V) (pass : V → Bool) :
    ℕ → ρ → (ℕ → Option ρ) → Option (ρ × (ℕ → Option ρ))
  | 0, node, update => some (node, update)
  | i + 1, node, update =>
      (walkLevel list.nodes pass i (list.len + 1) node).bind fun node =>
        search list pass i node (Function.update update i (some node))

/-- The loop of `skiplist_insert` that links the new node. -/
def linkLevels (node : ρ) (update : ℕ → Option ρ) :
    ℕ → Heap ρ (SkipNode ρ V) → Option (Heap ρ (SkipNode ρ V))
  | 0, nodes => some nodes
  | i + 1, nodes => (linkLevels node update i nodes).bind fun nodes =>
      (update i).bind fun before => (forwardAt nodes i before).bind fun next =>
        (setForward nodes i node next).bind fun nodes => setForward nodes i before (some node)

variable (cmp : V → V → ℤ)

/-- `skiplist_insert`, and whether it returned the list. -/
def insert (list : Skiplist ρ V) (node : ρ) (draws : ℕ) (value : V) :
    Option (Skiplist ρ V × Bool) :=
  (list.search (fun other => cmp other value ≤ 0) list.level list.header fun _ => none).bind
    fun (found, update) => (list.nodes found).bind fun cell =>
      if ∃ other ∈ cell.value, cmp other value = 0 then some (list, false)
      else
        let level := randomLevel draws
        let update := fun i =>
          if list.level ≤ i ∧ i < level then some list.header else update i
        (linkLevels node update level
          (list.nodes.alloc node ⟨some value, List.replicate level none⟩)).map fun nodes =>
            ({ list with level := max list.level level, len := list.len + 1, nodes }, true)

/-- `skiplist_find`. -/
def find (list : Skiplist ρ V) (value : V) : Option (Option ρ) :=
  (list.search (fun other => cmp other value ≤ 0) list.level list.header fun _ => none).bind
    fun (found, _) => (list.nodes found).map fun cell =>
      if ∃ other ∈ cell.value, cmp other value = 0 then some found else none

/-- The loop of `skiplist_delete` that unlinks the node. -/
def unlinkLevels (x : ρ) (update : ℕ → Option ρ) :
    ℕ → Heap ρ (SkipNode ρ V) → Option (Heap ρ (SkipNode ρ V))
  | 0, nodes => some nodes
  | i + 1, nodes => (unlinkLevels x update i nodes).bind fun nodes =>
      (update i).bind fun before => (forwardAt nodes i before).bind fun next =>
        if next = some x then
          (forwardAt nodes i x).bind fun next => setForward nodes i before next
        else some nodes

/-- The loop of `skiplist_delete` that leaves out the levels that became empty. -/
def shrinkLevel (nodes : Heap ρ (SkipNode ρ V)) (header : ρ) : ℕ → Option ℕ
  | 0 => some 0
  | level + 1 =>
      if level = 0 then some 1
      else (forwardAt nodes level header).bind fun next =>
        if next = none then shrinkLevel nodes header level else some (level + 1)

/-- `skiplist_delete`. -/
def delete (list : Skiplist ρ V) (x : ρ) : Option (Skiplist ρ V) :=
  (list.nodes x).bind fun cell => cell.value.bind fun value =>
    (list.search (fun other => cmp other value < 0) list.level list.header fun _ => none).bind
      fun (_, update) => (unlinkLevels x update list.level list.nodes).bind fun nodes =>
        (shrinkLevel nodes list.header list.level).bind fun level =>
          (nodes.free x).map fun nodes => { list with level, len := list.len - 1, nodes }

omit [DecidableEq ρ] in
/-- `skiplist_get_iterator`. -/
def getIterator (list : Skiplist ρ V) : Option (Option ρ) :=
  forwardAt list.nodes 0 list.header

omit [DecidableEq ρ] in
/-- `skiplist_next`. -/
def next (list : Skiplist ρ V) (iter : Option ρ) : Option (Option ρ × Option ρ) :=
  match iter with
  | none => some (none, none)
  | some curr => (forwardAt list.nodes 0 curr).map fun next => (some curr, next)

/-- Iterations over a skiplist. -/
def iterator : Iterator (Skiplist ρ V) (Option ρ) ρ where
  next := next
  del := delete cmp

end Skiplist

/-! ## Cells -/

section Cells

variable {nodes : Heap ρ (SkipNode ρ V)} {a : ρ} {i : ℕ}

omit [DecidableEq ρ] in
theorem forwardAt_ne_none {value : Option V} {height : ℕ}
    (shape : shapeOf nodes a = some (value, height)) (inside : i < height) :
    forwardAt nodes i a ≠ none := by
  rcases exists_cell shape with ⟨cell, found, eq⟩
  have length : cell.forward.length = height := congrArg Prod.snd eq
  unfold forwardAt
  rw [found, Option.bind_some, List.getElem?_eq_getElem (by rw [length]; exact inside)]
  exact Option.some_ne_none _

/-- An assignment changes one link on one level. -/
theorem setForward_eq (there : forwardAt nodes i a ≠ none) (pointer : Option ρ) :
    ∃ nodes', setForward nodes i a pointer = some nodes' ∧ shapeOf nodes' = shapeOf nodes ∧
      forwardAt nodes' i = Function.update (forwardAt nodes i) a (some pointer) ∧
      ∀ j, j ≠ i → forwardAt nodes' j = forwardAt nodes j := by
  rcases Option.ne_none_iff_exists'.mp there with ⟨old, linked⟩
  rcases Option.bind_eq_some_iff.mp linked with ⟨cell, found, inside⟩
  rcases List.getElem?_eq_some_iff.mp inside with ⟨bound, _⟩
  have links (j : ℕ) : forwardAt (Function.update nodes a
      (some { cell with forward := cell.forward.set i pointer })) j =
        Function.update (forwardAt nodes j) a (cell.forward.set i pointer)[j]? := by
    funext b
    unfold forwardAt
    rcases eq_or_ne b a with rfl | differ
    · rw [Function.update_self, Function.update_self]
      rfl
    · rw [Function.update_of_ne differ, Function.update_of_ne differ]
  refine ⟨_, by unfold setForward; rw [found, Option.bind_some, if_pos bound], ?_, ?_, ?_⟩
  · have same : fieldOf (fun cell => (cell.value, cell.forward.length)) nodes a =
        some (cell.value, cell.forward.length) := fieldOf_of_eq found
    unfold shapeOf
    rw [fieldOf_update, Option.map_some, List.length_set, ← same, Function.update_eq_self]
  · rw [links, List.getElem?_set_self bound]
  · intro j other
    have same : cell.forward[j]? = forwardAt nodes j a := by
      unfold forwardAt
      rw [found]
      rfl
    rw [links, List.getElem?_set_ne (Ne.symm other), same, Function.update_eq_self]

end Cells

end ViabtcServer.Container
