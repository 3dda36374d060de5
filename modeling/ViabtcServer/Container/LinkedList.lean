import ViabtcServer.Memory.Chain
import ViabtcServer.Memory.Iteration
import Mathlib.Data.Int.Basic
import Mathlib.Order.Basic

/-!
# Doubly linked lists

`ut_list.c` on allocated nodes. An operation without a result has read or written
through `NULL` or a node that is not allocated. Where a new node is allocated,
its address is an argument.
-/

namespace ViabtcServer.Container

open Memory

variable {ρ V : Type}

/-- `list_node`. -/
structure ListNode (ρ V : Type) where
  prev : Option ρ
  next : Option ρ
  value : V

namespace ListNode

/-- Assign `next`. -/
def setNext (next : Option ρ) (node : ListNode ρ V) : ListNode ρ V :=
  { node with next }

/-- Assign `prev`. -/
def setPrev (prev : Option ρ) (node : ListNode ρ V) : ListNode ρ V :=
  { node with prev }

variable (pointer : Option ρ) (node : ListNode ρ V)

@[simp]
theorem setNext_next : (node.setNext pointer).next = pointer :=
  rfl

@[simp]
theorem setNext_prev : (node.setNext pointer).prev = node.prev :=
  rfl

@[simp]
theorem setNext_value : (node.setNext pointer).value = node.value :=
  rfl

@[simp]
theorem setPrev_next : (node.setPrev pointer).next = node.next :=
  rfl

@[simp]
theorem setPrev_prev : (node.setPrev pointer).prev = pointer :=
  rfl

@[simp]
theorem setPrev_value : (node.setPrev pointer).value = node.value :=
  rfl

end ListNode

open ListNode

/-- `list_t` and its nodes. Values are pointers, which may be `NULL`. -/
structure ListT (ρ V : Type) where
  head : Option ρ
  tail : Option ρ
  dup : Option (Option V → Option V)
  len : ℕ
  nodes : Heap ρ (ListNode ρ V)

/-- `list_create`. -/
def listCreate (dup : Option (Option V → Option V)) : ListT ρ V :=
  ⟨none, none, dup, 0, Heap.empty⟩

/-- The value `list_create_node` puts in a node, which it does not create for `NULL`. -/
def listNodeValue (dup : Option (Option V → Option V)) (value : Option V) : Option V :=
  match dup with
  | some dup => dup value
  | none => value

variable [DecidableEq ρ]

/-- `list_add_node_head`. -/
def listAddNodeHead (list : ListT ρ V) (node : ρ) (value : Option V) : Option (ListT ρ V) :=
  match listNodeValue list.dup value with
  | none => some list
  | some value =>
      if list.len = 0 then
        some { list with
          head := some node
          tail := some node
          len := list.len + 1
          nodes := list.nodes.alloc node ⟨none, none, value⟩ }
      else
        ((list.nodes.alloc node ⟨none, list.head, value⟩).assign list.head
          (setPrev (some node))).map fun nodes =>
            { list with head := some node, len := list.len + 1, nodes }

/-- `list_add_node_tail`. -/
def listAddNodeTail (list : ListT ρ V) (node : ρ) (value : Option V) : Option (ListT ρ V) :=
  match listNodeValue list.dup value with
  | none => some list
  | some value =>
      if list.len = 0 then
        some { list with
          head := some node
          tail := some node
          len := list.len + 1
          nodes := list.nodes.alloc node ⟨none, none, value⟩ }
      else
        ((list.nodes.alloc node ⟨list.tail, none, value⟩).assign list.tail
          (setNext (some node))).map fun nodes =>
            { list with tail := some node, len := list.len + 1, nodes }

/-- An assignment through a pointer that is not `NULL`. -/
def assignIf (nodes : Heap ρ (ListNode ρ V)) (pointer : Option ρ)
    (change : ListNode ρ V → ListNode ρ V) : Option (Heap ρ (ListNode ρ V)) :=
  if pointer = none then some nodes else nodes.assign pointer change

/-- `list_insert_node`. -/
def listInsertNode (list : ListT ρ V) (pos node : ρ) (value : Option V) (before : Bool) :
    Option (ListT ρ V) :=
  match listNodeValue list.dup value with
  | none => some list
  | some value =>
      (list.nodes pos).bind fun cell =>
        match before with
        | true => link ⟨cell.prev, some pos, value⟩
            { list with head := if list.head = some pos then some node else list.head }
        | false => link ⟨some pos, cell.next, value⟩
            { list with tail := if list.tail = some pos then some node else list.tail }
where
  /-- The nodes beside the new one point to it. -/
  link (new : ListNode ρ V) (list : ListT ρ V) : Option (ListT ρ V) :=
    (assignIf (list.nodes.alloc node new) new.prev (setNext (some node))).bind fun nodes =>
      (assignIf nodes new.next (setPrev (some node))).map fun nodes =>
        { list with len := list.len + 1, nodes }

/-- `list_rotate`. -/
def listRotate (list : ListT ρ V) : Option (ListT ρ V) :=
  if list.len ≤ 1 then some list
  else
    list.tail.bind fun node => (list.nodes node).bind fun cell =>
      (list.nodes.assign cell.prev (setNext none)).bind fun nodes =>
        (nodes.assign (some node) (setNext list.head)).bind fun nodes =>
          (nodes.assign (some node) (setPrev none)).bind fun nodes =>
            (nodes.assign list.head (setPrev (some node))).map fun nodes =>
              { list with head := some node, tail := cell.prev, nodes }

/-- `list_del`. -/
def listDel (list : ListT ρ V) (node : ρ) : Option (ListT ρ V) :=
  (list.nodes node).bind fun cell =>
    (assignIf list.nodes cell.next (setPrev cell.prev)).bind fun nodes =>
      (assignIf nodes cell.prev (setNext cell.next)).bind fun nodes =>
        (nodes.free node).map fun nodes =>
          { list with
            head := if cell.prev = none then cell.next else list.head
            tail := if cell.next = none then cell.prev else list.tail
            len := list.len - 1
            nodes }

/-- The loop of `list_clear`. -/
def listClearLoop : ℕ → Option ρ → Heap ρ (ListNode ρ V) → Option (Heap ρ (ListNode ρ V))
  | 0, _, nodes => some nodes
  | len + 1, curr, nodes =>
      curr.bind fun a => (nodes a).bind fun cell =>
        (nodes.free a).bind fun nodes => listClearLoop len cell.next nodes

/-- `list_clear`. -/
def listClear (list : ListT ρ V) : Option (ListT ρ V) :=
  (listClearLoop list.len list.head list.nodes).map fun nodes =>
    { list with head := none, tail := none, len := 0, nodes }

/-- The loop of `list_index`. -/
def listIndexLoop (nodes : Heap ρ (ListNode ρ V)) (follow : ListNode ρ V → Option ρ) :
    ℕ → Option ρ → Option (Option ρ)
  | 0, node => some node
  | _ + 1, none => some none
  | index + 1, some node => (nodes node).bind fun cell =>
      listIndexLoop nodes follow index (follow cell)

/-- `list_index`. -/
def listIndex (list : ListT ρ V) (index : ℤ) : Option (Option ρ) :=
  if index < 0 then listIndexLoop list.nodes ListNode.prev (-index - 1).toNat list.tail
  else listIndexLoop list.nodes ListNode.next index.toNat list.head

/-- `LIST_START_HEAD` and `LIST_START_TAIL`. -/
inductive ListStart
  | head
  | tail
  deriving DecidableEq

/-- `list_iter`. -/
structure ListIter (ρ : Type) where
  next : Option ρ
  direction : ListStart

/-- `list_get_iterator`. -/
def listGetIterator (list : ListT ρ V) (direction : ListStart) : ListIter ρ :=
  match direction with
  | .head => ⟨list.head, .head⟩
  | .tail => ⟨list.tail, .tail⟩

/-- `list_next`. -/
def listNext (list : ListT ρ V) (iter : ListIter ρ) : Option (Option ρ × ListIter ρ) :=
  match iter.next with
  | none => some (none, iter)
  | some curr => (list.nodes curr).map fun cell =>
      (some curr, { iter with
        next := match iter.direction with
          | .head => cell.next
          | .tail => cell.prev })

/-- Iterations over a list. -/
def listIterator : Iterator (ListT ρ V) (ListIter ρ) ρ where
  next := listNext
  del := listDel

/-! ## Representation -/

/-- The list has these nodes with these values, and no others. -/
structure Represents (list : ListT ρ V) (xs : List (ρ × V)) : Prop where
  forward : Chain (fieldOf ListNode.next list.nodes) list.head (xs.map Prod.fst) none
  backward : Chain (fieldOf ListNode.prev list.nodes) list.tail (xs.map Prod.fst).reverse none
  values : ∀ x ∈ xs, fieldOf ListNode.value list.nodes x.1 = some x.2
  live : ∀ a, list.nodes a ≠ none → a ∈ xs.map Prod.fst
  len : list.len = xs.length

namespace Represents

variable {list : ListT ρ V} {xs l r : List (ρ × V)} {a : ρ} {v : V}

omit [DecidableEq ρ] in
theorem alive (rep : Represents list xs) (mem : a ∈ xs.map Prod.fst) : list.nodes a ≠ none := by
  rcases List.mem_map.mp mem with ⟨x, inside, rfl⟩
  rcases exists_cell (rep.values x inside) with ⟨cell, found, _⟩
  rw [found]
  exact Option.some_ne_none cell

omit [DecidableEq ρ] in
theorem nodup (rep : Represents list xs) : (xs.map Prod.fst).Nodup :=
  rep.forward.nodup

omit [DecidableEq ρ] in
theorem head_eq (rep : Represents list xs) : list.head = (xs.map Prod.fst).head? := by
  rw [rep.forward.start_eq, Option.or_none]

omit [DecidableEq ρ] in
theorem tail_eq (rep : Represents list xs) : list.tail = (xs.map Prod.fst).getLast? := by
  rw [rep.backward.start_eq, Option.or_none, List.head?_reverse]

omit [DecidableEq ρ] in
/-- A node points to its neighbours. -/
theorem cell (rep : Represents list (l ++ (a, v) :: r)) :
    list.nodes a = some ⟨(l.map Prod.fst).getLast?, (r.map Prod.fst).head?, v⟩ := by
  have forward := rep.forward
  have backward := rep.backward
  rw [List.map_append, List.map_cons] at forward backward
  rw [List.reverse_append, List.reverse_cons, List.append_assoc, List.singleton_append] at backward
  have nextEq := forward.link_eq
  have prevEq := backward.link_eq
  have valueEq := rep.values (a, v) (List.mem_append_right l List.mem_cons_self)
  rw [Option.or_none] at nextEq prevEq
  rw [List.head?_reverse] at prevEq
  rcases exists_cell nextEq with ⟨⟨prev, next, value⟩, found, rfl⟩
  rw [fieldOf_of_eq found] at prevEq valueEq
  cases prevEq
  cases valueEq
  exact found

omit [DecidableEq ρ] in
theorem len_eq_zero (rep : Represents list xs) : list.len = 0 ↔ xs = [] := by
  rw [rep.len, List.length_eq_zero_iff]

omit [DecidableEq ρ] in
theorem notMem_of_fresh (rep : Represents list xs) (fresh : list.nodes a = none) :
    a ∉ xs.map Prod.fst :=
  fun mem => rep.alive mem fresh

end Represents

/-! ## One more node -/

/-- The nodes with a new one between two parts of the list. -/
def splicedNodes (nodes : Heap ρ (ListNode ρ V)) (before after : List ρ) (node : ρ) (value : V) :
    Heap ρ (ListNode ρ V) :=
  ((nodes.alloc node ⟨before.getLast?, after.head?, value⟩).amend before.getLast?
    (setNext (some node))).amend after.head? (setPrev (some node))

/-- The list with that node. -/
def spliced (list : ListT ρ V) (before after : List ρ) (node : ρ) (value : V) : ListT ρ V :=
  { list with
    head := (before ++ [node]).head?
    tail := (after.reverse ++ [node]).head?
    len := list.len + 1
    nodes := splicedNodes list.nodes before after node value }

section Splice

variable {nodes : Heap ρ (ListNode ρ V)} {before after : List ρ} {a : ρ} {v : V}

theorem alloc_alive {cell : ListNode ρ V} {b : ρ} (alive : nodes b ≠ none) :
    nodes.alloc a cell b ≠ none := by
  unfold Heap.alloc
  rcases eq_or_ne b a with rfl | differ
  · rw [Function.update_self]
    exact Option.some_ne_none cell
  · rw [Function.update_of_ne differ]
    exact alive

theorem splicedNodes_next (alive : ∀ b ∈ before, nodes b ≠ none) :
    fieldOf next (splicedNodes nodes before after a v) =
      relink (Function.update (fieldOf next nodes) a (some after.head?)) before (some a) := by
  unfold splicedNodes
  rw [fieldOf_amend_same (setPrev_next (some a)), fieldOf_amend_last (setNext_next (some a)),
    fieldOf_alloc]
  exact fun b mem => alloc_alive (alive b mem)

theorem splicedNodes_prev (alive : ∀ b ∈ after, nodes b ≠ none) :
    fieldOf prev (splicedNodes nodes before after a v) =
      relink (Function.update (fieldOf prev nodes) a (some before.reverse.head?)) after.reverse
        (some a) := by
  unfold splicedNodes
  rw [← List.getLast?_reverse, fieldOf_amend_last (setPrev_prev (some a)),
    fieldOf_amend_same (setNext_prev (some a)), fieldOf_alloc, List.head?_reverse]
  intro b mem
  rw [Ne, amend_eq_none]
  exact alloc_alive (alive b (List.mem_reverse.mp mem))

theorem splicedNodes_value : fieldOf value (splicedNodes nodes before after a v) =
    Function.update (fieldOf value nodes) a (some v) := by
  unfold splicedNodes
  rw [fieldOf_amend_same (setPrev_value (some a)), fieldOf_amend_same (setNext_value (some a)),
    fieldOf_alloc]

theorem splicedNodes_eq_none {b : ρ} (other : b ≠ a) :
    splicedNodes nodes before after a v b = none ↔ nodes b = none := by
  unfold splicedNodes
  rw [amend_eq_none, amend_eq_none, Heap.alloc, Function.update_of_ne other]

/-- The chain from the head with a new node. -/
theorem splicedNodes_forward {start : Option ρ}
    (chain : Chain (fieldOf next nodes) start (before ++ after) none) (new : a ∉ before ++ after)
    (alive : ∀ b ∈ before, nodes b ≠ none) :
    Chain (fieldOf next (splicedNodes nodes before after a v)) (before ++ [a]).head?
      (before ++ a :: after) none := by
  rw [splicedNodes_next alive]
  have apart := List.disjoint_of_nodup_append chain.nodup
  apply chain.insert new
  · rw [relink_of_notMem fun mem => new (List.mem_append_left after mem), Function.update_self]
  · intro b mem
    apply relink_congr
    apply Function.update_of_ne
    rintro rfl
    exact new (List.mem_append_left after mem)
  · intro b mem
    rw [relink_of_notMem fun first => apart first mem]
    apply Function.update_of_ne
    rintro rfl
    exact new (List.mem_append_right before mem)

/-- The chain from the tail with a new node. -/
theorem splicedNodes_backward {start : Option ρ}
    (chain : Chain (fieldOf prev nodes) start (before ++ after).reverse none)
    (new : a ∉ before ++ after) (alive : ∀ b ∈ after, nodes b ≠ none) :
    Chain (fieldOf prev (splicedNodes nodes before after a v)) (after.reverse ++ [a]).head?
      (before ++ a :: after).reverse none := by
  have split : (before ++ a :: after).reverse = after.reverse ++ a :: before.reverse := by
    rw [List.reverse_append, List.reverse_cons, List.append_assoc]
    rfl
  rw [List.reverse_append] at chain
  rw [splicedNodes_prev alive, split]
  have apart := List.disjoint_of_nodup_append chain.nodup
  have new' : a ∉ after.reverse ++ before.reverse := by
    rw [← List.reverse_append, List.mem_reverse]
    exact new
  apply chain.insert new'
  · rw [relink_of_notMem fun mem => new' (List.mem_append_left _ mem), Function.update_self]
  · intro b mem
    apply relink_congr
    apply Function.update_of_ne
    rintro rfl
    exact new' (List.mem_append_left _ mem)
  · intro b mem
    rw [relink_of_notMem fun first => apart first mem]
    apply Function.update_of_ne
    rintro rfl
    exact new' (List.mem_append_right _ mem)

/-- A new node between two parts of the list. -/
theorem Represents.splice {list : ListT ρ V} {l r : List (ρ × V)} (rep : Represents list (l ++ r))
    (fresh : list.nodes a = none) (v : V) :
    Represents (spliced list (l.map Prod.fst) (r.map Prod.fst) a v) (l ++ (a, v) :: r) := by
  have new := rep.notMem_of_fresh fresh
  have alive : ∀ b ∈ (l ++ r).map Prod.fst, list.nodes b ≠ none := fun b mem => rep.alive mem
  have forward := rep.forward
  have backward := rep.backward
  rw [List.map_append] at new alive forward backward
  constructor
  · rw [List.map_append, List.map_cons]
    apply splicedNodes_forward forward new
    exact fun b mem => alive b (List.mem_append_left _ mem)
  · rw [List.map_append, List.map_cons]
    apply splicedNodes_backward backward new
    exact fun b mem => alive b (List.mem_append_right _ mem)
  · intro x mem
    change fieldOf value (splicedNodes _ _ _ _ _) x.1 = some x.2
    rw [splicedNodes_value]
    rcases List.mem_append.mp mem with left | right
    · rw [Function.update_of_ne, rep.values x (List.mem_append_left r left)]
      rintro rfl
      exact new (List.mem_append_left _ (List.mem_map_of_mem left))
    · rcases List.mem_cons.mp right with rfl | inside
      · exact Function.update_self _ _ _
      · rw [Function.update_of_ne, rep.values x (List.mem_append_right l inside)]
        rintro rfl
        exact new (List.mem_append_right _ (List.mem_map_of_mem inside))
  · intro b found
    rw [List.map_append, List.map_cons, List.mem_append, List.mem_cons]
    rcases eq_or_ne b a with rfl | differ
    · exact Or.inr (Or.inl rfl)
    · have mem := rep.live b fun none => found ((splicedNodes_eq_none differ).mpr none)
      rw [List.map_append, List.mem_append] at mem
      rcases mem with left | right
      · exact Or.inl left
      · exact Or.inr (Or.inr right)
  · change list.len + 1 = _
    rw [rep.len, List.length_append, List.length_append, List.length_cons, Nat.add_assoc]

end Splice

/-! ## One node less -/

/-- The nodes without one between two parts of the list. -/
def unlinkedNodes (nodes : Heap ρ (ListNode ρ V)) (before after : List ρ) (node : ρ) :
    Heap ρ (ListNode ρ V) :=
  Function.update ((nodes.amend after.head? (setPrev before.getLast?)).amend before.getLast?
    (setNext after.head?)) node none

/-- The list without that node. -/
def unlinked (list : ListT ρ V) (before after : List ρ) (node : ρ) : ListT ρ V :=
  { list with
    head := (before ++ after).head?
    tail := (after.reverse ++ before.reverse).head?
    len := list.len - 1
    nodes := unlinkedNodes list.nodes before after node }

section Unlink

variable {nodes : Heap ρ (ListNode ρ V)} {before after : List ρ} {a : ρ} {v : V}

theorem unlinkedNodes_next (alive : ∀ b ∈ before, nodes b ≠ none) :
    fieldOf next (unlinkedNodes nodes before after a) =
      Function.update (relink (fieldOf next nodes) before after.head?) a none := by
  unfold unlinkedNodes
  rw [fieldOf_update, fieldOf_amend_last (setNext_next _), fieldOf_amend_same (setPrev_next _)]
  · rfl
  · intro b mem
    rw [Ne, amend_eq_none]
    exact alive b mem

theorem unlinkedNodes_prev (alive : ∀ b ∈ after, nodes b ≠ none) :
    fieldOf prev (unlinkedNodes nodes before after a) =
      Function.update (relink (fieldOf prev nodes) after.reverse before.reverse.head?) a none := by
  unfold unlinkedNodes
  rw [fieldOf_update, fieldOf_amend_same (setNext_prev _), ← List.getLast?_reverse,
    fieldOf_amend_last (setPrev_prev _), List.head?_reverse]
  · rfl
  · intro b mem
    exact alive b (List.mem_reverse.mp mem)

theorem unlinkedNodes_value : fieldOf value (unlinkedNodes nodes before after a) =
    Function.update (fieldOf value nodes) a none := by
  unfold unlinkedNodes
  rw [fieldOf_update, fieldOf_amend_same (setNext_value _), fieldOf_amend_same (setPrev_value _)]
  rfl

theorem unlinkedNodes_ne_none {b : ρ} (found : unlinkedNodes nodes before after a b ≠ none) :
    b ≠ a ∧ nodes b ≠ none := by
  unfold unlinkedNodes at found
  rcases eq_or_ne b a with rfl | differ
  · rw [Function.update_self] at found
    exact absurd rfl found
  · rw [Function.update_of_ne differ, Ne, amend_eq_none, amend_eq_none] at found
    exact ⟨differ, found⟩

/-- A chain without a node whose link is gone. -/
theorem chain_unlinked {link : ρ → Option (Option ρ)} {start : Option ρ}
    (chain : Chain link start (before ++ a :: after) none) :
    Chain (Function.update (relink link before after.head?) a none) (before ++ after).head?
      (before ++ after) none := by
  have nodup := chain.nodup
  have apart := List.disjoint_of_nodup_append nodup
  rw [List.nodup_middle, List.nodup_cons] at nodup
  have other (b : ρ) (mem : b ∈ before ++ after) : b ≠ a := by
    rintro rfl
    exact nodup.1 mem
  apply chain.remove
  · intro b mem
    exact Function.update_of_ne (other b (List.mem_append_left after mem)) _ _
  · intro b mem
    rw [Function.update_of_ne (other b (List.mem_append_right before mem))]
    exact relink_of_notMem fun first => apart first (List.mem_cons_of_mem a mem)

/-- The list without one of its nodes. -/
theorem Represents.unlink {list : ListT ρ V} {l r : List (ρ × V)}
    (rep : Represents list (l ++ (a, v) :: r)) :
    Represents (unlinked list (l.map Prod.fst) (r.map Prod.fst) a) (l ++ r) := by
  have alive : ∀ b ∈ (l ++ (a, v) :: r).map Prod.fst, list.nodes b ≠ none :=
    fun b mem => rep.alive mem
  have forward := rep.forward
  have backward := rep.backward
  have split : (l.map Prod.fst ++ a :: r.map Prod.fst).reverse =
      (r.map Prod.fst).reverse ++ a :: (l.map Prod.fst).reverse := by
    rw [List.reverse_append, List.reverse_cons, List.append_assoc]
    rfl
  rw [List.map_append, List.map_cons] at alive forward backward
  have nodup := forward.nodup
  rw [List.nodup_middle, List.nodup_cons] at nodup
  rw [split] at backward
  constructor
  · change Chain (fieldOf next (unlinkedNodes _ _ _ _)) _ _ _
    rw [unlinkedNodes_next fun b mem => alive b (List.mem_append_left _ mem), List.map_append]
    exact chain_unlinked forward
  · change Chain (fieldOf prev (unlinkedNodes _ _ _ _)) _ _ _
    rw [unlinkedNodes_prev fun b mem => alive b
      (List.mem_append_right _ (List.mem_cons_of_mem a mem)), List.map_append, List.reverse_append]
    exact chain_unlinked backward
  · intro x mem
    change fieldOf value (unlinkedNodes _ _ _ _) x.1 = some x.2
    rw [unlinkedNodes_value, Function.update_of_ne]
    · apply rep.values x
      rw [List.mem_append, List.mem_cons]
      rcases List.mem_append.mp mem with left | right
      · exact Or.inl left
      · exact Or.inr (Or.inr right)
    · intro same
      apply nodup.1
      rw [← List.map_append]
      exact List.mem_map.mpr ⟨x, mem, same⟩
  · intro b found
    rcases unlinkedNodes_ne_none found with ⟨differ, old⟩
    have mem := rep.live b old
    rw [List.map_append, List.map_cons, List.mem_append, List.mem_cons] at mem
    rw [List.map_append, List.mem_append]
    rcases mem with left | same | right
    · exact Or.inl left
    · exact absurd same differ
    · exact Or.inr right
  · change list.len - 1 = _
    rw [rep.len, List.length_append, List.length_append, List.length_cons]
    omega

end Unlink

/-! ## Operations -/

section Operations

variable {list : ListT ρ V} {xs l r : List (ρ × V)} {a : ρ} {v : V} {value : Option V}

omit [DecidableEq ρ] in
theorem listCreate_represents (dup : Option (Option V → Option V)) :
    Represents (listCreate (ρ := ρ) dup) [] where
  forward := rfl
  backward := rfl
  values := nofun
  live _ found := absurd rfl found
  len := rfl

/-- An assignment through a pointer that is `NULL` or points to a node. -/
theorem assignIf_eq {nodes : Heap ρ (ListNode ρ V)} {pointer : Option ρ}
    {change : ListNode ρ V → ListNode ρ V} (alive : ∀ b, pointer = some b → nodes b ≠ none) :
    assignIf nodes pointer change = some (nodes.amend pointer change) := by
  unfold assignIf
  cases pointer with
  | none => exact if_pos rfl
  | some b =>
      rw [if_neg (Option.some_ne_none b)]
      exact assign_eq (alive b rfl)

theorem listAddNodeHead_eq (rep : Represents list xs)
    (made : listNodeValue list.dup value = some v) :
    listAddNodeHead list a value = some (spliced list [] (xs.map Prod.fst) a v) := by
  unfold listAddNodeHead spliced
  rw [made]
  simp only [List.nil_append, List.head?_append, List.head?_reverse, ← rep.tail_eq]
  cases xs with
  | nil =>
      rw [if_pos (rep.len_eq_zero.mpr rfl), rep.tail_eq]
      rfl
  | cons x xs =>
      have head : list.head = some x.1 := rep.head_eq
      have alive : list.nodes.alloc a ⟨none, some x.1, v⟩ x.1 ≠ none :=
        alloc_alive (rep.alive List.mem_cons_self)
      have tail : list.tail.or [a].head? = list.tail := by
        rw [rep.tail_eq, List.map_cons, List.getLast?_cons]
        rfl
      rw [if_neg (fun zero => List.cons_ne_nil _ _ (rep.len_eq_zero.mp zero)), head,
        assign_eq alive, tail]
      rfl

theorem listAddNodeTail_eq (rep : Represents list xs)
    (made : listNodeValue list.dup value = some v) :
    listAddNodeTail list a value = some (spliced list (xs.map Prod.fst) [] a v) := by
  unfold listAddNodeTail spliced
  rw [made]
  simp only [List.reverse_nil, List.nil_append, List.head?_append, ← rep.head_eq]
  rcases List.eq_nil_or_concat xs with rfl | ⟨front, x, rfl⟩
  · rw [if_pos (rep.len_eq_zero.mpr rfl), rep.head_eq]
    rfl
  · rw [List.concat_eq_append] at rep ⊢
    have tail : list.tail = some x.1 := by
      rw [rep.tail_eq, List.map_append]
      exact List.getLast?_concat
    have alive : list.nodes.alloc a ⟨some x.1, none, v⟩ x.1 ≠ none := by
      apply alloc_alive
      apply rep.alive
      rw [List.map_append]
      exact List.mem_append_right _ List.mem_cons_self
    have head : list.head.or [a].head? = list.head := by
      rw [rep.head_eq]
      cases front <;> rfl
    have last : ((front ++ [x]).map Prod.fst).getLast? = some x.1 := by
      rw [List.map_append]
      exact List.getLast?_concat
    rw [if_neg (fun zero => absurd (rep.len_eq_zero.mp zero) (List.append_ne_nil_of_right_ne_nil _
      (List.cons_ne_nil x []))), tail, assign_eq alive, head]
    unfold splicedNodes
    rw [last]
    rfl

omit [DecidableEq ρ] in
/-- Neighbours of a node are allocated. -/
theorem Represents.neighbours (rep : Represents list (l ++ r)) :
    (∀ b, (l.map Prod.fst).getLast? = some b → list.nodes b ≠ none) ∧
      ∀ b, (r.map Prod.fst).head? = some b → list.nodes b ≠ none := by
  constructor
  · intro b last
    apply rep.alive
    rw [List.map_append]
    exact List.mem_append_left _ (List.mem_of_getLast? last)
  · intro b first
    apply rep.alive
    rw [List.map_append]
    exact List.mem_append_right _ (List.mem_of_mem_head? first)

/-- The end of `list_insert_node`. -/
theorem listInsertNode_link (rep : Represents list (l ++ r)) (v : V) {list' : ListT ρ V}
    (nodes : list'.nodes = list.nodes) :
    listInsertNode.link a ⟨(l.map Prod.fst).getLast?, (r.map Prod.fst).head?, v⟩ list' =
      some { list' with
        len := list'.len + 1
        nodes := splicedNodes list.nodes (l.map Prod.fst) (r.map Prod.fst) a v } := by
  have near := rep.neighbours
  unfold listInsertNode.link
  rw [nodes, assignIf_eq fun b last => alloc_alive (near.1 b last), Option.bind_some,
    assignIf_eq fun b first => by
      rw [Ne, amend_eq_none]
      exact alloc_alive (near.2 b first)]
  rfl

/-- A node is not at the front where others come before it. -/
theorem Represents.front (rep : Represents list (l ++ (a, v) :: r)) (b : ρ) :
    (if list.head = some a then some b else list.head) = (l.map Prod.fst).head?.or (some b) := by
  rw [rep.head_eq]
  cases l with
  | nil => exact if_pos rfl
  | cons x l =>
      have nodup := rep.nodup
      rw [if_neg]
      · rfl
      · intro same
        rw [List.map_append, List.map_cons, List.map_cons, List.cons_append] at nodup
        apply (List.nodup_cons.mp nodup).1
        rw [Option.some.inj same]
        exact List.mem_append_right _ List.mem_cons_self

/-- And not at the end where others come after it. -/
theorem Represents.back (rep : Represents list (l ++ (a, v) :: r)) (b : ρ) :
    (if list.tail = some a then some b else list.tail) = (r.map Prod.fst).getLast?.or (some b) := by
  rw [rep.tail_eq, List.map_append, List.map_cons]
  rcases List.eq_nil_or_concat r with rfl | ⟨front, x, rfl⟩
  · rw [List.map_nil, List.getLast?_concat, if_pos rfl]
    rfl
  · have nodup := rep.nodup
    have last : (l.map Prod.fst ++ a :: (front.concat x).map Prod.fst).getLast? = some x.1 := by
      rw [List.concat_eq_append, List.map_append, ← List.cons_append, ← List.append_assoc]
      exact List.getLast?_concat
    rw [last, if_neg, List.concat_eq_append, List.map_append]
    · exact congrArg (Option.or · (some b)) List.getLast?_concat.symm
    · intro same
      rw [List.map_append, List.map_cons] at nodup
      apply (List.nodup_cons.mp (List.nodup_append.mp nodup).2.1).1
      rw [← Option.some.inj same, List.concat_eq_append, List.map_append]
      exact List.mem_append_right _ List.mem_cons_self

theorem listInsertNode_before {pos : ρ} {w : V} (rep : Represents list (l ++ (pos, w) :: r))
    (made : listNodeValue list.dup value = some v) :
    listInsertNode list pos a value true =
      some (spliced list (l.map Prod.fst) (((pos, w) :: r).map Prod.fst) a v) := by
  have tail : list.tail = ((((pos, w) :: r).map Prod.fst).getLast?).or [a].head? := by
    rw [rep.tail_eq, List.map_append, List.getLast?_append, List.map_cons, List.getLast?_cons]
    rfl
  unfold listInsertNode spliced
  rw [made, rep.cell]
  simp only [Option.bind_some, List.head?_append, List.head?_reverse]
  rw [rep.front, ← tail]
  exact listInsertNode_link rep v rfl

theorem listInsertNode_after {pos : ρ} {w : V} (rep : Represents list (l ++ (pos, w) :: r))
    (made : listNodeValue list.dup value = some v) :
    listInsertNode list pos a value false =
      some (spliced list ((l ++ [(pos, w)]).map Prod.fst) (r.map Prod.fst) a v) := by
  have around : Represents list ((l ++ [(pos, w)]) ++ r) := by
    rw [List.append_assoc]
    exact rep
  have head : list.head = ((l ++ [(pos, w)]).map Prod.fst).head?.or [a].head? := by
    rw [rep.head_eq]
    cases l <;> rfl
  have last : ((l ++ [(pos, w)]).map Prod.fst).getLast? = some pos := by
    rw [List.map_append]
    exact List.getLast?_concat
  have linked : listInsertNode.link a
      ⟨((l ++ [(pos, w)]).map Prod.fst).getLast?, (r.map Prod.fst).head?, v⟩
      { list with tail := (r.map Prod.fst).getLast?.or (some a) } = _ :=
    listInsertNode_link around v rfl
  unfold listInsertNode spliced
  rw [made, rep.cell]
  simp only [Option.bind_some, List.head?_append, List.head?_reverse]
  rw [rep.back, ← head]
  rw [last] at linked
  exact linked

omit [DecidableEq ρ] in
/-- The ends of the list without one of its nodes. -/
theorem Represents.ends (rep : Represents list (l ++ (a, v) :: r)) :
    (if (l.map Prod.fst).getLast? = none then (r.map Prod.fst).head? else list.head) =
      (l.map Prod.fst ++ r.map Prod.fst).head? ∧
    (if (r.map Prod.fst).head? = none then (l.map Prod.fst).getLast? else list.tail) =
      ((r.map Prod.fst).reverse ++ (l.map Prod.fst).reverse).head? := by
  rw [rep.head_eq, rep.tail_eq, List.map_append, List.map_cons]
  constructor
  · cases l with
    | nil => exact if_pos rfl
    | cons x l =>
        rw [if_neg]
        · rfl
        · rw [List.map_cons, List.getLast?_cons]
          exact Option.some_ne_none _
  · rw [List.head?_append, List.head?_reverse, List.head?_reverse]
    cases r with
    | nil => exact if_pos rfl
    | cons x r =>
        rw [List.map_cons, List.head?_cons, if_neg (Option.some_ne_none _), List.getLast?_append,
          List.getLast?_cons, List.getLast?_cons]
        rfl

theorem listDel_eq (rep : Represents list (l ++ (a, v) :: r)) :
    listDel list a = some (unlinked list (l.map Prod.fst) (r.map Prod.fst) a) := by
  have near : (∀ b, (l.map Prod.fst).getLast? = some b → list.nodes b ≠ none) ∧
      ∀ b, (r.map Prod.fst).head? = some b → list.nodes b ≠ none := by
    constructor
    · exact rep.neighbours.1
    · have behind : Represents list ((l ++ [(a, v)]) ++ r) := by
        rw [List.append_assoc]
        exact rep
      exact behind.neighbours.2
  have there : list.nodes a ≠ none := by
    rw [rep.cell]
    exact Option.some_ne_none _
  unfold listDel unlinked
  rw [rep.cell]
  simp only [Option.bind_some]
  rw [assignIf_eq near.2, Option.bind_some, assignIf_eq fun b last => by
    rw [Ne, amend_eq_none]
    exact near.1 b last, Option.bind_some, free_eq (by rwa [Ne, amend_eq_none, amend_eq_none]),
    rep.ends.1, rep.ends.2]
  rfl

/-! ### Rotation -/

/-- The last node comes first. -/
def rotated {α : Type} (xs : List α) : List α :=
  match xs.getLast? with
  | some x => x :: xs.dropLast
  | none => []

theorem rotated_concat {α : Type} (xs : List α) (x : α) : rotated (xs ++ [x]) = x :: xs := by
  unfold rotated
  rw [List.getLast?_concat, List.dropLast_concat]

/-- The nodes after `list_rotate`. -/
def rotatedNodes (nodes : Heap ρ (ListNode ρ V)) (front : List ρ) (node : ρ) :
    Heap ρ (ListNode ρ V) :=
  (((nodes.amend front.getLast? (setNext none)).amend (some node) (setNext front.head?)).amend
    (some node) (setPrev none)).amend front.head? (setPrev (some node))

theorem listRotate_short (rep : Represents list xs) (short : xs.length ≤ 1) :
    listRotate list = some list ∧ rotated xs = xs := by
  constructor
  · exact if_pos (by rw [rep.len]; exact short)
  · match xs with
    | [] => rfl
    | [x] => rfl
    | _ :: _ :: xs =>
        rw [List.length_cons, List.length_cons] at short
        omega

theorem listRotate_eq {x : ρ × V} {front : List (ρ × V)}
    (rep : Represents list (x :: front ++ [(a, v)])) :
    listRotate list = some { list with
      head := some a
      tail := ((x :: front).map Prod.fst).getLast?
      nodes := rotatedNodes list.nodes ((x :: front).map Prod.fst) a } := by
  have near := rep.neighbours
  have head : list.head = some x.1 := rep.head_eq
  have tail : list.tail = some a := by
    rw [rep.tail_eq, List.map_append]
    exact List.getLast?_concat
  have long : ¬ list.len ≤ 1 := by
    rw [rep.len, List.length_append, List.length_cons, List.length_singleton]
    omega
  have last : ((x :: front).map Prod.fst).getLast? ≠ none := by
    rw [List.map_cons, List.getLast?_cons]
    exact Option.some_ne_none _
  rcases Option.ne_none_iff_exists'.mp last with ⟨b, lastEq⟩
  have lastAlive := near.1 b lastEq
  have thereAlive : list.nodes.amend (some b) (setNext none) a ≠ none := by
    rw [Ne, amend_eq_none, rep.cell]
    exact Option.some_ne_none _
  have stillAlive : (list.nodes.amend (some b) (setNext none)).amend (some a)
      (setNext (some x.1)) a ≠ none := by
    rw [Ne, amend_eq_none]
    exact thereAlive
  have headAlive : ((list.nodes.amend (some b) (setNext none)).amend (some a)
      (setNext (some x.1))).amend (some a) (setPrev none) x.1 ≠ none := by
    rw [Ne, amend_eq_none, amend_eq_none, amend_eq_none]
    exact rep.alive List.mem_cons_self
  unfold listRotate rotatedNodes
  rw [if_neg long, tail, Option.bind_some, rep.cell, Option.bind_some, lastEq, head]
  simp only [assign_eq lastAlive, Option.bind_some, assign_eq thereAlive,
    assign_eq stillAlive, assign_eq headAlive]
  rfl

/-- Both chains after a rotation. -/
theorem Represents.rotate {x : ρ × V} {front : List (ρ × V)}
    (rep : Represents list (x :: front ++ [(a, v)])) :
    Represents { list with
      head := some a
      tail := ((x :: front).map Prod.fst).getLast?
      nodes := rotatedNodes list.nodes ((x :: front).map Prod.fst) a }
      ((a, v) :: x :: front) := by
  have forward := rep.forward
  have backward := rep.backward
  have alive : ∀ b ∈ (x :: front ++ [(a, v)]).map Prod.fst, list.nodes b ≠ none :=
    fun b mem => rep.alive mem
  rw [List.map_append] at forward backward alive
  have there : list.nodes a ≠ none := alive a (List.mem_append_right _ List.mem_cons_self)
  have apart := List.disjoint_of_nodup_append forward.nodup
  have other : a ∉ (x :: front).map Prod.fst := fun mem => apart mem List.mem_cons_self
  have nodup := (List.nodup_append.mp forward.nodup).1
  have firstEq : ((x :: front).map Prod.fst).head? = some x.1 := rfl
  have nexts : fieldOf next (rotatedNodes list.nodes ((x :: front).map Prod.fst) a) =
      Function.update (relink (fieldOf next list.nodes) ((x :: front).map Prod.fst) none) a
        (some (some x.1)) := by
    unfold rotatedNodes
    rw [fieldOf_amend_same (setPrev_next _), fieldOf_amend_same (setPrev_next _),
      fieldOf_amend_set (setNext_next _), fieldOf_amend_last (setNext_next _), firstEq]
    · exact fun b mem => alive b (List.mem_append_left _ mem)
    · rw [Ne, amend_eq_none]
      exact there
  have prevs : fieldOf prev (rotatedNodes list.nodes ((x :: front).map Prod.fst) a) =
      relink (Function.update (fieldOf prev list.nodes) a (some none))
        ((x :: front).map Prod.fst).reverse (some a) := by
    unfold rotatedNodes
    rw [← List.getLast?_reverse, fieldOf_amend_last (setPrev_prev _),
      fieldOf_amend_set (setPrev_prev _), fieldOf_amend_same (setNext_prev _),
      fieldOf_amend_same (setNext_prev _)]
    · rw [Ne, amend_eq_none, amend_eq_none]
      exact there
    · intro b mem
      rw [Ne, amend_eq_none, amend_eq_none, amend_eq_none]
      exact alive b (List.mem_append_left _ (List.mem_reverse.mp mem))
  have values : fieldOf value (rotatedNodes list.nodes ((x :: front).map Prod.fst) a) =
      fieldOf value list.nodes := by
    unfold rotatedNodes
    rw [fieldOf_amend_same (setPrev_value _), fieldOf_amend_same (setPrev_value _),
      fieldOf_amend_same (setNext_value _), fieldOf_amend_same (setNext_value _)]
  constructor
  · rw [nexts]
    rcases chain_append.mp forward with ⟨middle, first, _⟩
    constructor
    · rfl
    · exact ⟨some x.1, Function.update_self _ _ _,
        (first.relink nodup none).update_of_notMem other⟩
  · rw [prevs]
    have reversed : ((x :: front).map Prod.fst ++ [a]).reverse =
        a :: ((x :: front).map Prod.fst).reverse := List.reverse_concat ..
    have turned : (((a, v) :: x :: front).map Prod.fst).reverse =
        ((x :: front).map Prod.fst).reverse ++ [a] := List.reverse_cons ..
    have away : a ∉ ((x :: front).map Prod.fst).reverse :=
      fun mem => other (List.mem_reverse.mp mem)
    have start : ((x :: front).map Prod.fst).getLast? =
        ((x :: front).map Prod.fst).reverse.head?.or (some a) := by
      rw [List.head?_reverse, List.map_cons, List.getLast?_cons]
      rfl
    change Chain _ _ ((x :: front).map Prod.fst ++ [a]).reverse none at backward
    rw [reversed] at backward
    rcases backward with ⟨_, before, _, rest⟩
    rw [turned, start]
    apply chain_append.mpr
    refine ⟨some a, ?_, rfl, none, ?_, rfl⟩
    · apply (rest.relink (List.nodup_reverse.mpr nodup) (some a)).congr
      intro b mem
      apply relink_congr
      apply Function.update_of_ne
      rintro rfl
      exact away mem
    · rw [relink_of_notMem away, Function.update_self]
  · intro y mem
    rw [values]
    apply rep.values
    rcases List.mem_cons.mp mem with rfl | inside
    · exact List.mem_append_right _ List.mem_cons_self
    · exact List.mem_append_left _ inside
  · intro b found
    have mem := rep.live b fun none => found (by
      unfold rotatedNodes
      rw [amend_eq_none, amend_eq_none, amend_eq_none, amend_eq_none]
      exact none)
    rw [List.map_append, List.mem_append] at mem
    rcases mem with inside | last
    · exact List.mem_cons_of_mem a inside
    · rw [List.mem_singleton.mp last]
      exact List.mem_cons_self
  · change list.len = _
    rw [rep.len, List.length_append, List.length_cons, List.length_cons, List.length_cons]
    rfl

end Operations

end ViabtcServer.Container
