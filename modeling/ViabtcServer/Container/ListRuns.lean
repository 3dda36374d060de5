import ViabtcServer.Container.LinkedList

/-!
# Runs of list operations

What `list_clear`, `list_index` and the iterator do on a list with given nodes,
and what a sequence of operations leaves: the nodes it denotes, linked both ways.
-/

namespace ViabtcServer.Container

open Memory ListNode

variable {ρ V : Type} {list : ListT ρ V} {xs l r : List (ρ × V)} {a : ρ} {v : V}

/-! ## Indices -/

theorem listIndexLoop_eq {nodes : Heap ρ (ListNode ρ V)} {follow : ListNode ρ V → Option ρ}
    {start : Option ρ} {order : List ρ} (chain : Chain (fieldOf follow nodes) start order none)
    (index : ℕ) : listIndexLoop nodes follow index start = some order[index]? := by
  induction index generalizing start order with
  | zero =>
      rw [← List.head?_eq_getElem?, chain.start_eq, Option.or_none]
      rfl
  | succ index ih =>
      cases order with
      | nil =>
          cases chain
          rfl
      | cons a order =>
          rcases chain with ⟨rfl, next, linked, rest⟩
          rcases exists_cell linked with ⟨cell, found, rfl⟩
          unfold listIndexLoop
          rw [found, Option.bind_some, ih rest, List.getElem?_cons_succ]

/-- The nodes from either end. -/
theorem Represents.index (rep : Represents list xs) (i : ℕ) :
    listIndex list i = some (xs.map Prod.fst)[i]? ∧
      listIndex list (-i - 1) = some (xs.map Prod.fst).reverse[i]? := by
  have back : (-(-(i : ℤ) - 1) - 1).toNat = i := by omega
  unfold listIndex
  constructor
  · rw [if_neg (by omega), Int.toNat_natCast]
    exact listIndexLoop_eq rep.forward i
  · rw [if_pos (by omega), back]
    exact listIndexLoop_eq rep.backward i

variable [DecidableEq ρ]

/-! ## Clearing -/

theorem listClearLoop_eq {nodes : Heap ρ (ListNode ρ V)} {curr : Option ρ} {order : List ρ}
    (chain : Chain (fieldOf next nodes) curr order none) :
    ∃ nodes', listClearLoop order.length curr nodes = some nodes' ∧
      ∀ b, nodes' b ≠ none → b ∉ order ∧ nodes b ≠ none := by
  induction order generalizing curr nodes with
  | nil => exact ⟨nodes, rfl, fun b found => ⟨List.not_mem_nil, found⟩⟩
  | cons a order ih =>
      have nodup := List.nodup_cons.mp chain.nodup
      rcases chain with ⟨rfl, next, linked, rest⟩
      rcases exists_cell linked with ⟨cell, found, rfl⟩
      have freed : nodes.free a = some (Function.update nodes a none) :=
        free_eq (by rw [found]; exact Option.some_ne_none cell)
      have rest' : Chain (fieldOf ListNode.next (Function.update nodes a none)) cell.next order
          none := by
        rw [fieldOf_update]
        exact rest.update_of_notMem nodup.1
      rcases ih rest' with ⟨nodes', run, left⟩
      refine ⟨nodes', ?_, ?_⟩
      · change (some a).bind _ = _
        rw [Option.bind_some, found, Option.bind_some, freed, Option.bind_some]
        exact run
      · intro b there
        rcases left b there with ⟨out, still⟩
        rcases eq_or_ne b a with rfl | differ
        · rw [Function.update_self] at still
          exact absurd rfl still
        · rw [Function.update_of_ne differ] at still
          exact ⟨fun mem => (List.mem_cons.mp mem).elim differ out, still⟩

theorem Represents.clear (rep : Represents list xs) :
    ∃ list', listClear list = some list' ∧ list'.dup = list.dup ∧ Represents list' [] := by
  have length : (xs.map Prod.fst).length = list.len := by
    rw [List.length_map, rep.len]
  rcases listClearLoop_eq rep.forward with ⟨nodes', run, left⟩
  rw [length] at run
  unfold listClear
  rw [run]
  exact ⟨_, rfl, rfl, rfl, rfl, nofun, fun b found =>
    absurd (rep.live b (left b found).2) (left b found).1, rfl⟩

/-! ## Iteration -/

/-- The order in which an iterator gives the nodes. -/
def ListStart.order {α : Type} (direction : ListStart) (nodes : List α) : List α :=
  match direction with
  | .head => nodes
  | .tail => nodes.reverse

/-- The link an iterator follows. -/
def ListStart.follow (direction : ListStart) : ListNode ρ V → Option ρ :=
  match direction with
  | .head => next
  | .tail => prev

omit [DecidableEq ρ] in
theorem Represents.chain (rep : Represents list xs) (direction : ListStart) :
    Chain (fieldOf direction.follow list.nodes) (listGetIterator list direction).next
      (direction.order (xs.map Prod.fst)) none := by
  cases direction with
  | head => exact rep.forward
  | tail => exact rep.backward

omit [DecidableEq ρ] in
theorem listNext_eq {cell : ListNode ρ V} (found : list.nodes a = some cell)
    (direction : ListStart) :
    listNext list ⟨some a, direction⟩ = some (some a, ⟨direction.follow cell, direction⟩) := by
  unfold listNext
  simp only
  rw [found]
  cases direction <;> rfl

omit [DecidableEq ρ] in
/-- A member has a place. -/
theorem exists_split (mem : a ∈ xs.map Prod.fst) : ∃ v l r, xs = l ++ (a, v) :: r := by
  rcases List.mem_map.mp mem with ⟨⟨_, v⟩, inside, rfl⟩
  rcases List.append_of_mem inside with ⟨l, r, split⟩
  exact ⟨v, l, r, split⟩

omit [DecidableEq ρ] in
theorem order_filter (direction : ListStart) (nodes : List ρ) (keep : ρ → Bool) :
    direction.order (nodes.filter keep) = (direction.order nodes).filter keep := by
  cases direction with
  | head => rfl
  | tail => exact List.filter_reverse.symm

/-- The iterator stands before the nodes still to come. -/
def Coming (list : ListT ρ V) (iter : ListIter ρ) (rest : List ρ) (xs : List (ρ × V)) : Prop :=
  Represents list xs ∧ iter.next = rest.head? ∧
    ∃ done, iter.direction.order (xs.map Prod.fst) = done ++ rest

omit [DecidableEq ρ] in
theorem mem_order {direction : ListStart} {nodes : List ρ} :
    a ∈ direction.order nodes ↔ a ∈ nodes := by
  cases direction with
  | head => exact Iff.rfl
  | tail => exact List.mem_reverse

omit [DecidableEq ρ] in
theorem order_nodup {direction : ListStart} {nodes : List ρ} (nodup : nodes.Nodup) :
    (direction.order nodes).Nodup := by
  cases direction with
  | head => exact nodup
  | tail => exact List.nodup_reverse.mpr nodup

theorem listIterator_safe : (listIterator : Iterator (ListT ρ V) (ListIter ρ) ρ).Safe
    (fun xs a => a ∈ xs.map Prod.fst) (without Prod.fst) Coming where
  stop := by
    rintro list ⟨pointer, direction⟩ xs ⟨_, none, _⟩
    cases none
    exact ⟨_, rfl⟩
  step := by
    rintro list ⟨pointer, direction⟩ a rest xs ⟨rep, first, done, order⟩
    cases first
    have chain := rep.chain direction
    rw [order] at chain
    have link := chain.link_eq
    rw [Option.or_none] at link
    rcases exists_cell link with ⟨cell, found, follow⟩
    have step : listNext list ⟨some a, direction⟩ =
        some (some a, ⟨rest.head?, direction⟩) := by
      rw [listNext_eq found, follow]
    refine ⟨_, step, rep, rfl, done ++ [a], ?_⟩
    rw [order, List.append_assoc]
    rfl
  nodup := by
    rintro list iter rest xs ⟨rep, _, done, order⟩
    have nodup : (iter.direction.order (xs.map Prod.fst)).Nodup := order_nodup rep.nodup
    rw [order] at nodup
    exact (List.nodup_append.mp nodup).2.1
  present := by
    rintro list iter rest xs ⟨rep, _, done, order⟩ a mem
    have given : a ∈ iter.direction.order (xs.map Prod.fst) := by
      rw [order]
      exact List.mem_append_right done mem
    exact mem_order.mp given
  del := by
    rintro list iter a rest xs ⟨rep, first, done, order⟩ mem behind
    rcases exists_split mem with ⟨v, l, r, rfl⟩
    have left := rep.unlink
    rw [← without_middle rep.nodup] at left
    refine ⟨_, listDel_eq rep, left, first, done.filter (· ≠ a), ?_⟩
    have rest_eq : rest.filter (· ≠ a) = rest :=
      List.filter_eq_self.mpr fun b coming => decide_eq_true (by rintro rfl; exact behind coming)
    rw [map_without, order_filter, order, List.filter_append, rest_eq]

/-- A whole iteration. -/
theorem Represents.sweep (rep : Represents list xs) (chosen : ρ → Bool) (direction : ListStart) :
    ∃ list', listIterator.sweep (Iterator.justGiven chosen) (xs.length + 1) [] list
      (listGetIterator list direction) = some (direction.order (xs.map Prod.fst), list') ∧
        Represents list' (xs.filter fun x => !chosen x.1) := by
  have coming : Coming list (listGetIterator list direction)
      (direction.order (xs.map Prod.fst)) xs := by
    cases direction with
    | head => exact ⟨rep, rep.head_eq, [], rfl⟩
    | tail => exact ⟨rep, rep.tail_eq.trans List.head?_reverse.symm, [], rfl⟩
  have length : (direction.order (xs.map Prod.fst)).length = xs.length := by
    cases direction with
    | head => exact List.length_map _
    | tail => exact (List.length_reverse).trans (List.length_map _)
  have all : ∀ x ∈ xs, x.1 ∈ direction.order (xs.map Prod.fst) :=
    fun x mem => mem_order.mpr (List.mem_map_of_mem mem)
  rcases listIterator_safe.sweep_without chosen coming all (Nat.lt_succ_of_le length.le) with
    ⟨list', iter', run, left, _⟩
  exact ⟨list', run, left⟩

/-! ## Sequences of operations -/

/-- An operation, with the address of the node it allocates. -/
inductive ListOp (ρ V : Type)
  | addHead (node : ρ) (value : Option V)
  | addTail (node : ρ) (value : Option V)
  | insert (pos node : ρ) (value : Option V) (before : Bool)
  | rotate
  | del (node : ρ)
  | clear

namespace ListOp

/-- What an operation does to the list. -/
def run (op : ListOp ρ V) (list : ListT ρ V) : Option (ListT ρ V) :=
  match op with
  | addHead node value => listAddNodeHead list node value
  | addTail node value => listAddNodeTail list node value
  | insert pos node value before => listInsertNode list pos node value before
  | rotate => listRotate list
  | del node => listDel list node
  | clear => listClear list

/-- Addresses of new nodes are not in use, and other nodes are members. -/
def Valid (op : ListOp ρ V) (nodes : List ρ) : Prop :=
  match op with
  | addHead node _ => node ∉ nodes
  | addTail node _ => node ∉ nodes
  | insert pos node _ _ => node ∉ nodes ∧ pos ∈ nodes
  | rotate => True
  | del node => node ∈ nodes
  | clear => True

/-- The sequence an operation denotes. Where the value of a new node is `NULL`, there is none. -/
def denote (dup : Option (Option V → Option V)) (op : ListOp ρ V) (xs : List (ρ × V)) :
    List (ρ × V) :=
  match op with
  | addHead node value => (listNodeValue dup value).toList.map (node, ·) ++ xs
  | addTail node value => xs ++ (listNodeValue dup value).toList.map (node, ·)
  | insert pos node value before => xs.flatMap fun x =>
      if x.1 = pos then
        let new := (listNodeValue dup value).toList.map (node, ·)
        if before then new ++ [x] else x :: new
      else [x]
  | rotate => rotated xs
  | del node => xs.filter fun x => x.1 ≠ node
  | clear => []

end ListOp

/-- Inserting beside one of the nodes. -/
theorem flatMap_middle {pos : ρ} {w : V} (nodup : ((l ++ (pos, w) :: r).map Prod.fst).Nodup)
    (new : ρ × V → List (ρ × V)) :
    ((l ++ (pos, w) :: r).flatMap fun x => if x.1 = pos then new x else [x]) =
      l ++ (new (pos, w) ++ r) := by
  have same (part : List (ρ × V)) (other : ∀ x ∈ part, x.1 ≠ pos) :
      (part.flatMap fun x => if x.1 = pos then new x else [x]) = part := by
    induction part with
    | nil => rfl
    | cons x part ih =>
        rw [List.flatMap_cons, if_neg (other x List.mem_cons_self),
          ih fun y mem => other y (List.mem_cons_of_mem x mem)]
        rfl
  rw [List.map_append, List.map_cons] at nodup
  have apart := List.nodup_append.mp nodup
  rw [List.flatMap_append, List.flatMap_cons, if_pos rfl, same l, same r]
  · intro x mem same
    exact (List.nodup_cons.mp apart.2.1).1 (List.mem_map.mpr ⟨x, mem, same⟩)
  · intro x mem same
    exact apart.2.2 pos (List.mem_map.mpr ⟨x, mem, same⟩) pos List.mem_cons_self rfl

/-- One operation. -/
theorem ListOp.run_represents (op : ListOp ρ V) (rep : Represents list xs)
    (valid : op.Valid (xs.map Prod.fst)) :
    ∃ list', op.run list = some list' ∧ list'.dup = list.dup ∧
      Represents list' (op.denote list.dup xs) := by
  have unused (node : ρ) (new : node ∉ xs.map Prod.fst) : list.nodes node = none := by
    by_contra used
    exact new (rep.live node used)
  cases op with
  | addHead node value =>
      unfold run denote
      simp only
      cases made : listNodeValue list.dup value with
      | none =>
          unfold listAddNodeHead
          rw [made]
          exact ⟨list, rfl, rfl, rep⟩
      | some v =>
          rw [listAddNodeHead_eq rep made]
          exact ⟨_, rfl, rfl, Represents.splice (l := []) rep (unused node valid) v⟩
  | addTail node value =>
      unfold run denote
      simp only
      cases made : listNodeValue list.dup value with
      | none =>
          unfold listAddNodeTail
          rw [made]
          rw [Option.toList_none, List.map_nil, List.append_nil]
          exact ⟨list, rfl, rfl, rep⟩
      | some v =>
          rw [listAddNodeTail_eq rep made]
          rw [← List.append_nil xs] at rep
          exact ⟨_, rfl, rfl, rep.splice (unused node valid) v⟩
  | insert pos node value before =>
      rcases valid with ⟨new, member⟩
      rcases exists_split member with ⟨w, l, r, rfl⟩
      have free := unused node new
      unfold run denote
      simp only
      rw [flatMap_middle rep.nodup]
      cases made : listNodeValue list.dup value with
      | none =>
          unfold listInsertNode
          rw [made]
          cases before <;> exact ⟨list, rfl, rfl, rep⟩
      | some v =>
          cases before with
          | true =>
              rw [listInsertNode_before rep made]
              exact ⟨_, rfl, rfl, rep.splice free v⟩
          | false =>
              have around : Represents list ((l ++ [(pos, w)]) ++ r) := by
                rw [List.append_assoc]
                exact rep
              have spliced := around.splice free v
              rw [listInsertNode_after rep made]
              rw [List.append_assoc] at spliced
              exact ⟨_, rfl, rfl, spliced⟩
  | rotate =>
      unfold run denote
      simp only
      by_cases short : xs.length ≤ 1
      · rcases listRotate_short rep short with ⟨eq, same⟩
        rw [eq, same]
        exact ⟨list, rfl, rfl, rep⟩
      · rcases List.eq_nil_or_concat xs with rfl | ⟨front, ⟨a, v⟩, rfl⟩
        · exact absurd (Nat.zero_le 1) short
        · rw [List.concat_eq_append] at rep short ⊢
          cases front with
          | nil => exact absurd (le_refl 1) short
          | cons x front =>
              rw [listRotate_eq rep, rotated_concat]
              exact ⟨_, rfl, rfl, rep.rotate⟩
  | del node =>
      rcases exists_split valid with ⟨w, l, r, rfl⟩
      have left : ((l ++ (node, w) :: r).filter fun x => x.1 ≠ node) = l ++ r :=
        without_middle rep.nodup
      unfold run denote
      simp only
      rw [listDel_eq rep, left]
      exact ⟨_, rfl, rfl, rep.unlink⟩
  | clear => exact rep.clear

/-- A sequence of operations. -/
def listRuns : List (ListOp ρ V) → ListT ρ V → Option (ListT ρ V)
  | [], list => some list
  | op :: ops, list => (op.run list).bind (listRuns ops)

/-- What it denotes. -/
def listDenotes (dup : Option (Option V → Option V)) (ops : List (ListOp ρ V))
    (xs : List (ρ × V)) : List (ρ × V) :=
  ops.foldl (fun xs op => op.denote dup xs) xs

/-- Every operation is valid where it is called. -/
def ValidOps (dup : Option (Option V → Option V)) : List (ListOp ρ V) → List (ρ × V) → Prop
  | [], _ => True
  | op :: ops, xs => op.Valid (xs.map Prod.fst) ∧ ValidOps dup ops (op.denote dup xs)

theorem listRuns_represents {ops : List (ListOp ρ V)} (rep : Represents list xs)
    (valid : ValidOps list.dup ops xs) :
    ∃ list', listRuns ops list = some list' ∧ Represents list' (listDenotes list.dup ops xs) := by
  induction ops generalizing list xs with
  | nil => exact ⟨list, rfl, rep⟩
  | cons op ops ih =>
      rcases op.run_represents rep valid.1 with ⟨list', run, dup, rep'⟩
      rcases ih rep' (by rw [dup]; exact valid.2) with ⟨list'', runs, rep''⟩
      rw [dup] at rep''
      exact ⟨list'', by
        unfold listRuns
        rw [run]
        exact runs, rep''⟩

/-- After any sequence of operations the list has the nodes they denote, linked both ways; they are
found by their indices from either end, and an iteration gives them all, in order, whichever of
them are deleted when they were given. -/
theorem list_keeps_representation (dup : Option (Option V → Option V)) (ops : List (ListOp ρ V))
    (valid : ValidOps dup ops []) :
    ∃ list, listRuns ops (listCreate dup) = some list ∧
      Represents list (listDenotes dup ops []) ∧
      (∀ i : ℕ,
        listIndex list i = some ((listDenotes dup ops []).map Prod.fst)[i]? ∧
        listIndex list (-i - 1) = some ((listDenotes dup ops []).map Prod.fst).reverse[i]?) ∧
      ∀ (direction : ListStart) (chosen : ρ → Bool), ∃ list',
        listIterator.sweep (Iterator.justGiven chosen) ((listDenotes dup ops []).length + 1) [] list
          (listGetIterator list direction) =
            some (direction.order ((listDenotes dup ops []).map Prod.fst), list') ∧
        Represents list' ((listDenotes dup ops []).filter fun x => !chosen x.1) := by
  rcases listRuns_represents (listCreate_represents dup) valid with ⟨list, runs, rep⟩
  exact ⟨list, runs, rep, rep.index, fun direction chosen => rep.sweep chosen direction⟩

/-- Five operations on nodes at three addresses. -/
theorem list_keeps_representation_small :
    ∃ list, listRuns [.addHead 1 (some 'a'), .addTail 2 (some 'b'), .insert 2 3 (some 'c') true,
        .rotate, .del 1] (listCreate (ρ := ℕ) (V := Char) none) = some list ∧
      Represents list [(2, 'b'), (3, 'c')] := by
  have valid : ValidOps none [.addHead 1 (some 'a'), .addTail 2 (some 'b'),
      .insert 2 3 (some 'c') true, .rotate, .del 1] ([] : List (ℕ × Char)) := by
    simp [ValidOps, ListOp.Valid, ListOp.denote, listNodeValue, rotated]
  rcases list_keeps_representation none _ valid with ⟨list, runs, rep, _⟩
  exact ⟨list, runs, rep⟩

end ViabtcServer.Container
