import ViabtcServer.Container.SkipOperations
import ViabtcServer.Container.SkipList
import Mathlib.Data.Set.Basic

/-!
# Runs of skiplist operations

Whatever heights the new nodes get, the skiplist stays a sorted list with
shortcuts: its operations and iterations answer as on the values in order.
-/

namespace ViabtcServer.Container

open Memory

variable {ρ V : Type} [DecidableEq ρ] {cmp : V → V → ℤ} {s : Set V} {list : Skiplist ρ V}
  {xs : List (SkipEntry ρ V)} {x : SkipEntry ρ V} {a : ρ} {v : V}

/-- The content of a skiplist: a sorted list with shortcuts, of values that compare. -/
structure Holds (cmp : V → V → ℤ) (s : Set V) (list : Skiplist ρ V) (xs : List (SkipEntry ρ V)) :
    Prop where
  levels : Levels cmp list xs
  inside : ∀ x ∈ xs, x.value ∈ s

namespace Holds

omit [DecidableEq ρ] in
/-- Values decide where an entry is. -/
theorem unique (holds : Holds cmp s list xs) (compares : Compares cmp s) {y : SkipEntry ρ V}
    (memX : x ∈ xs) (memY : y ∈ xs) (same : x.value = y.value) : x = y := by
  have irrefl {z : SkipEntry ρ V} (mem : z ∈ xs) : ¬ cmp z.value z.value < 0 := by
    have zero := (compares.zero_iff (holds.inside z mem) (holds.inside z mem)).mpr rfl
    rw [zero]
    exact Int.lt_irrefl 0
  rcases List.append_of_mem memX with ⟨l, r, rfl⟩
  rcases List.pairwise_append.mp holds.levels.sorted with ⟨_, second, cross⟩
  rcases List.mem_append.mp memY with inL | inRest
  · have less := cross y inL x List.mem_cons_self
    rw [same] at less
    exact absurd less (irrefl memY)
  · rcases List.mem_cons.mp inRest with rfl | inR
    · rfl
    · have less := (List.pairwise_cons.mp second).1 y inR
      rw [same] at less
      exact absurd less (irrefl memY)

/-! ## Single operations -/

/-- Inserting a value that is present changes nothing. -/
theorem insert_present (holds : Holds cmp s list xs) (compares : Compares cmp s) (mem : v ∈ s)
    (present : ∃ x ∈ xs, x.value = v) (node : ρ) (draws : ℕ) :
    list.insert cmp node draws v = some (list, false) := by
  rcases holds.levels.split compares holds.inside mem with
    ⟨lo, x, hi, rfl, same, below, above⟩ | ⟨lo, hi, rfl, below, above⟩
  · have zero := (compares.zero_iff (holds.inside x (List.mem_append_right lo List.mem_cons_self))
      mem).mpr same
    exact holds.levels.insert_present zero below above draws
  · rcases present with ⟨x, among, rfl⟩
    have zero := (compares.zero_iff mem mem).mpr rfl
    rcases List.mem_append.mp among with inLo | inHi
    · exact absurd zero (Int.ne_of_lt (below x inLo))
    · exact absurd zero.symm (Int.ne_of_lt (above x inHi))

/-- Inserting a value that is not present puts it between the smaller and the larger ones. -/
theorem insert_absent (holds : Holds cmp s list xs) (compares : Compares cmp s) (mem : v ∈ s)
    (absent : ∀ x ∈ xs, x.value ≠ v) (fresh : list.nodes a = none) (draws : ℕ) :
    ∃ lo hi list', xs = lo ++ hi ∧ (∀ y ∈ lo, cmp y.value v < 0) ∧ (∀ y ∈ hi, 0 < cmp y.value v) ∧
      list.insert cmp a draws v = some (list', true) ∧ list'.header = list.header ∧
      Holds cmp s list' (lo ++ ⟨a, v, Skiplist.randomLevel draws⟩ :: hi) := by
  rcases holds.levels.split compares holds.inside mem with
    ⟨lo, x, hi, rfl, same, _, _⟩ | ⟨lo, hi, rfl, below, above⟩
  · exact absurd same (absent x (List.mem_append_right lo List.mem_cons_self))
  · have above' : ∀ y ∈ hi, cmp v y.value < 0 := fun y inHi =>
      (compares.flip mem (holds.inside y (List.mem_append_right lo inHi))).mpr (above y inHi)
    rcases holds.levels.insert_absent fresh below above above' draws with
      ⟨list', inserted, header, levels⟩
    refine ⟨lo, hi, list', rfl, below, above, inserted, header, levels, ?_⟩
    intro y among
    rcases List.mem_append.mp among with inLo | inRest
    · exact holds.inside y (List.mem_append_left hi inLo)
    · rcases List.mem_cons.mp inRest with rfl | inHi
      · exact mem
      · exact holds.inside y (List.mem_append_right lo inHi)

omit [DecidableEq ρ] in
/-- A search finds the node of the value. -/
theorem find_eq (holds : Holds cmp s list xs) (compares : Compares cmp s) (mem : v ∈ s) :
    ∃ found, list.find cmp v = some found ∧
      ∀ node, found = some node ↔ ∃ x ∈ xs, x.node = node ∧ x.value = v := by
  rcases holds.levels.split compares holds.inside mem with
    ⟨lo, x, hi, rfl, same, below, above⟩ | ⟨lo, hi, rfl, below, above⟩
  · have member := List.mem_append_right lo (List.mem_cons_self (a := x) (l := hi))
    have zero := (compares.zero_iff (holds.inside x member) mem).mpr same
    refine ⟨some x.node, holds.levels.find_present zero below above, ?_⟩
    intro node
    constructor
    · rintro ⟨rfl⟩
      exact ⟨x, member, rfl, same⟩
    · rintro ⟨y, among, rfl, equal⟩
      rw [holds.unique compares member among (same.trans equal.symm)]
  · refine ⟨none, holds.levels.find_absent below above, ?_⟩
    intro node
    apply iff_of_false (Option.some_ne_none node).symm
    rintro ⟨x, among, _, rfl⟩
    have zero := (compares.zero_iff mem mem).mpr rfl
    rcases List.mem_append.mp among with inLo | inHi
    · exact absurd zero (Int.ne_of_lt (below x inLo))
    · exact absurd zero.symm (Int.ne_of_lt (above x inHi))

/-- Deleting a node takes it out of every level. -/
theorem delete_eq (holds : Holds cmp s list xs) (compares : Compares cmp s) (mem : x ∈ xs) :
    ∃ list', list.delete cmp x.node = some list' ∧ list'.header = list.header ∧
      Holds cmp s list' (without SkipEntry.node xs x.node) := by
  rcases List.append_of_mem mem with ⟨l, r, rfl⟩
  rcases List.pairwise_append.mp holds.levels.sorted with ⟨_, second, cross⟩
  have here := holds.inside x mem
  have above : ∀ y ∈ x :: r, 0 ≤ cmp y.value x.value := by
    intro y among
    rcases List.mem_cons.mp among with rfl | inR
    · exact Int.le_of_eq ((compares.zero_iff here here).mpr rfl).symm
    · have there := holds.inside y (List.mem_append_right l (List.mem_cons_of_mem x inR))
      exact Int.le_of_lt ((compares.flip here there).mp ((List.pairwise_cons.mp second).1 y inR))
  rcases holds.levels.delete_eq (fun y inL => cross y inL x List.mem_cons_self) above with
    ⟨list', deleted, header, levels⟩
  rw [without_middle (List.nodup_cons.mp holds.levels.nodup).2]
  refine ⟨list', deleted, header, levels, ?_⟩
  intro y among
  rcases List.mem_append.mp among with inL | inR
  · exact holds.inside y (List.mem_append_left _ inL)
  · exact holds.inside y (List.mem_append_right l (List.mem_cons_of_mem x inR))

/-! ## Iterations -/

/-- The iterator stands before the nodes still to come. -/
def Coming (cmp : V → V → ℤ) (s : Set V) (list : Skiplist ρ V) (iter : Option ρ) (rest : List ρ)
    (xs : List (SkipEntry ρ V)) : Prop :=
  Holds cmp s list xs ∧ iter = rest.head? ∧ ∃ done, xs.map SkipEntry.node = done ++ rest

omit [DecidableEq ρ] in
/-- Level 0 links all nodes. -/
theorem bottom (holds : Holds cmp s list xs) : levelNodes 0 xs = xs.map SkipEntry.node :=
  levelNodes_zero fun x mem => (holds.levels.heights x mem).1

omit [DecidableEq ρ] in
theorem chain (holds : Holds cmp s list xs) : Chain (forwardAt list.nodes 0) (some list.header)
    (list.header :: xs.map SkipEntry.node) none := by
  rw [← holds.bottom]
  exact holds.levels.chains 0 (Nat.zero_lt_succ 15)

theorem iterator_safe (compares : Compares cmp s) :
    (Skiplist.iterator cmp : Iterator (Skiplist ρ V) (Option ρ) ρ).Safe
      (fun xs a => a ∈ xs.map SkipEntry.node) (without SkipEntry.node) (Coming cmp s) where
  stop := by
    rintro list iter xs ⟨_, rfl, _⟩
    exact ⟨none, rfl⟩
  step := by
    rintro list iter a rest xs ⟨holds, rfl, done, order⟩
    have chain := holds.chain
    rw [order, ← List.cons_append] at chain
    have link := chain.link_eq
    rw [Option.or_none] at link
    refine ⟨rest.head?, ?_, holds, rfl, done ++ [a], ?_⟩
    · change (forwardAt list.nodes 0 a).map (fun next => (some a, next)) = some (some a, rest.head?)
      rw [link]
      rfl
    · rw [order, List.append_assoc]
      rfl
  nodup := by
    rintro list iter rest xs ⟨holds, _, done, order⟩
    have nodup := (List.nodup_cons.mp holds.levels.nodup).2
    rw [order] at nodup
    exact (List.nodup_append.mp nodup).2.1
  present := by
    rintro list iter rest xs ⟨_, _, done, order⟩ a mem
    rw [order]
    exact List.mem_append_right done mem
  del := by
    rintro list iter a rest xs ⟨holds, first, done, order⟩ mem behind
    rcases List.mem_map.mp mem with ⟨x, among, rfl⟩
    rcases holds.delete_eq compares among with ⟨list', deleted, _, holds'⟩
    refine ⟨list', deleted, holds', first, done.filter (· ≠ x.node), ?_⟩
    have rest_eq : rest.filter (· ≠ x.node) = rest :=
      List.filter_eq_self.mpr fun b coming => decide_eq_true (by rintro rfl; exact behind coming)
    rw [map_without, order, List.filter_append, rest_eq]

/-- A whole iteration. -/
theorem sweep (holds : Holds cmp s list xs) (compares : Compares cmp s) (chosen : ρ → Bool) :
    ∃ iter list', list.getIterator = some iter ∧
      (Skiplist.iterator cmp).sweep (Iterator.justGiven chosen) (xs.length + 1) [] list iter =
        some (xs.map SkipEntry.node, list') ∧
      Holds cmp s list' (xs.filter fun x => !chosen x.node) := by
  have first : list.getIterator = some (xs.map SkipEntry.node).head? := by
    have chain : Chain (forwardAt list.nodes 0) (some list.header)
      ([] ++ list.header :: xs.map SkipEntry.node) none := holds.chain
    have link := chain.link_eq
    rw [Option.or_none] at link
    exact link
  have coming : Coming cmp s list (xs.map SkipEntry.node).head? (xs.map SkipEntry.node) xs :=
    ⟨holds, rfl, [], rfl⟩
  have length : (xs.map SkipEntry.node).length < xs.length + 1 := by
    rw [List.length_map]
    exact Nat.lt_succ_self _
  rcases (iterator_safe compares).sweep_without chosen coming
    (fun x mem => List.mem_map_of_mem mem) length with ⟨list', iter', run, holds', _⟩
  exact ⟨_, list', first, run, holds'⟩

end Holds

/-! ## Sequences of operations -/

omit [DecidableEq ρ] in
/-- A node and its value. -/
def SkipEntry.pair (x : SkipEntry ρ V) : ρ × V :=
  (x.node, x.value)

/-- An operation, with the address of the node it allocates and what `random` answers. -/
inductive SkipOp (ρ V : Type)
  | insert (node : ρ) (draws : ℕ) (value : V)
  | find (value : V)
  | delete (node : ρ)

namespace SkipOp

variable (cmp) (s)

/-- What an operation does to the skiplist. -/
def run (op : SkipOp ρ V) (list : Skiplist ρ V) : Option (Skiplist ρ V) :=
  match op with
  | insert node draws value => (list.insert cmp node draws value).map Prod.fst
  | find value => (list.find cmp value).map fun _ => list
  | delete node => list.delete cmp node

omit [DecidableEq ρ] in
/-- Values compare, addresses of new nodes are not in use, and deleted nodes were found. -/
def Valid (header : ρ) (op : SkipOp ρ V) (xs : List (ρ × V)) : Prop :=
  match op with
  | insert node _ value => value ∈ s ∧
      ((∀ x ∈ xs, x.2 ≠ value) → node ∉ header :: xs.map Prod.fst)
  | find value => value ∈ s
  | delete node => node ∈ xs.map Prod.fst

/-- The sorted list an operation denotes. -/
def denote (op : SkipOp ρ V) (xs : List (ρ × V)) : List (ρ × V) :=
  match op with
  | insert node _ value => (skiplistInsert (fun x y => cmp x.2 y.2) xs (node, value)).getD xs
  | find _ => xs
  | delete node => without Prod.fst xs node

end SkipOp

section Flat

variable {lo hi : List (SkipEntry ρ V)}

omit [DecidableEq ρ] in
/-- Insertion into the sorted list where the value is not present. -/
theorem skiplistInsert_absent (below : ∀ y ∈ lo, cmp y.value v < 0)
    (above : ∀ y ∈ hi, 0 < cmp y.value v) :
    skiplistInsert (fun x y => cmp x.2 y.2) ((lo ++ hi).map SkipEntry.pair) (a, v) =
      some (lo.map SkipEntry.pair ++ (a, v) :: hi.map SkipEntry.pair) := by
  have passes : ∀ y ∈ lo.map SkipEntry.pair, decide (cmp y.2 v ≤ 0) = true := by
    intro y mem
    rcases List.mem_map.mp mem with ⟨x, among, rfl⟩
    exact decide_eq_true (Int.le_of_lt (below x among))
  have stops : (hi.map SkipEntry.pair).takeWhile (fun y => cmp y.2 v ≤ 0) = [] ∧
      (hi.map SkipEntry.pair).dropWhile (fun y => cmp y.2 v ≤ 0) = hi.map SkipEntry.pair := by
    cases hi with
    | nil => exact ⟨rfl, rfl⟩
    | cons x hi =>
        have fails : ¬ cmp x.pair.2 v ≤ 0 := Int.not_le.mpr (above x List.mem_cons_self)
        rw [List.map_cons, List.takeWhile_cons_of_neg (by rw [decide_eq_true_iff]; exact fails),
          List.dropWhile_cons_of_neg (by rw [decide_eq_true_iff]; exact fails)]
        exact ⟨rfl, rfl⟩
  have last : ∀ y ∈ (lo.map SkipEntry.pair).getLast?, cmp y.2 v ≠ 0 := by
    intro y mem
    rcases List.mem_map.mp (List.mem_of_getLast? mem) with ⟨x, among, rfl⟩
    exact Int.ne_of_lt (below x among)
  unfold skiplistInsert walk
  rw [List.map_append, List.takeWhile_append_of_pos passes, List.dropWhile_append_of_pos passes,
    stops.1, stops.2, List.append_nil]
  simp only
  cases found : (lo.map SkipEntry.pair).getLast? with
  | none => rfl
  | some y => exact if_neg (last y found)

omit [DecidableEq ρ] in
/-- Insertion into the sorted list where the value is present. -/
theorem skiplistInsert_present (zero : cmp x.value v = 0) (below : ∀ y ∈ lo, cmp y.value v < 0)
    (above : ∀ y ∈ hi, 0 < cmp y.value v) :
    skiplistInsert (fun x y => cmp x.2 y.2) ((lo ++ x :: hi).map SkipEntry.pair) (a, v) = none := by
  have passes : ∀ y ∈ (lo ++ [x]).map SkipEntry.pair, decide (cmp y.2 v ≤ 0) = true := by
    intro y mem
    rcases List.mem_map.mp mem with ⟨z, among, rfl⟩
    apply decide_eq_true
    rcases List.mem_append.mp among with inLo | last
    · exact Int.le_of_lt (below z inLo)
    · rw [List.mem_singleton.mp last]
      exact Int.le_of_eq zero
  have stops : (hi.map SkipEntry.pair).takeWhile (fun y => cmp y.2 v ≤ 0) = [] := by
    cases hi with
    | nil => rfl
    | cons y hi =>
        have fails : ¬ cmp y.pair.2 v ≤ 0 := Int.not_le.mpr (above y List.mem_cons_self)
        rw [List.map_cons, List.takeWhile_cons_of_neg (by rw [decide_eq_true_iff]; exact fails)]
  have regroup : (lo ++ x :: hi).map SkipEntry.pair =
      (lo ++ [x]).map SkipEntry.pair ++ hi.map SkipEntry.pair := by
    rw [← List.map_append, List.append_assoc]
    rfl
  unfold skiplistInsert walk
  rw [regroup, List.takeWhile_append_of_pos passes, stops, List.append_nil, List.map_append,
    List.map_singleton, List.getLast?_concat]
  exact if_pos zero

end Flat

theorem map_pair_without (xs : List (SkipEntry ρ V)) (a : ρ) :
    (without SkipEntry.node xs a).map SkipEntry.pair =
      without Prod.fst (xs.map SkipEntry.pair) a := by
  unfold without
  rw [List.filter_map]
  rfl

/-- One operation. -/
theorem SkipOp.run_holds (op : SkipOp ρ V) (holds : Holds cmp s list xs)
    (compares : Compares cmp s) (valid : op.Valid s list.header (xs.map SkipEntry.pair)) :
    ∃ list' xs', op.run cmp list = some list' ∧ list'.header = list.header ∧
      Holds cmp s list' xs' ∧
      xs'.map SkipEntry.pair = op.denote cmp (xs.map SkipEntry.pair) := by
  have nodes : (xs.map SkipEntry.pair).map Prod.fst = xs.map SkipEntry.node := List.map_map
  cases op with
  | insert node draws value =>
      rcases valid with ⟨mem, unused⟩
      unfold run denote
      simp only
      by_cases present : ∃ x ∈ xs, x.value = value
      · rw [holds.insert_present compares mem present]
        refine ⟨list, xs, rfl, rfl, holds, ?_⟩
        rcases holds.levels.split compares holds.inside mem with
          ⟨lo, x, hi, rfl, same, below, above⟩ | ⟨lo, hi, rfl, below, above⟩
        · have zero := (compares.zero_iff
            (holds.inside x (List.mem_append_right lo List.mem_cons_self)) mem).mpr same
          rw [skiplistInsert_present zero below above]
          rfl
        · rcases present with ⟨x, among, rfl⟩
          have zero := (compares.zero_iff mem mem).mpr rfl
          rcases List.mem_append.mp among with inLo | inHi
          · exact absurd zero (Int.ne_of_lt (below x inLo))
          · exact absurd zero.symm (Int.ne_of_lt (above x inHi))
      · have absent : ∀ x ∈ xs, x.value ≠ value := fun x among same => present ⟨x, among, same⟩
        have fresh : list.nodes node = none := by
          by_contra used
          apply unused
          · intro y among
            rcases List.mem_map.mp among with ⟨x, inside, rfl⟩
            exact absent x inside
          · rw [nodes]
            exact List.mem_cons.mpr (holds.levels.live node used)
        rcases holds.insert_absent compares mem absent fresh draws with
          ⟨lo, hi, list', rfl, below, above, inserted, header, holds'⟩
        rw [inserted, skiplistInsert_absent below above]
        refine ⟨list', _, rfl, header, holds', ?_⟩
        rw [List.map_append, List.map_cons]
        rfl
  | find value =>
      rcases holds.find_eq compares valid with ⟨found, eq, _⟩
      unfold run denote
      simp only
      rw [eq]
      exact ⟨list, xs, rfl, rfl, holds, rfl⟩
  | delete node =>
      unfold Valid at valid
      rw [nodes] at valid
      rcases List.mem_map.mp valid with ⟨x, among, rfl⟩
      rcases holds.delete_eq compares among with ⟨list', deleted, header, holds'⟩
      exact ⟨list', _, deleted, header, holds', map_pair_without xs x.node⟩

/-- A sequence of operations. -/
def skipRuns (cmp : V → V → ℤ) : List (SkipOp ρ V) → Skiplist ρ V → Option (Skiplist ρ V)
  | [], list => some list
  | op :: ops, list => (op.run cmp list).bind (skipRuns cmp ops)

/-- What it denotes. -/
def skipDenotes (cmp : V → V → ℤ) (ops : List (SkipOp ρ V)) (xs : List (ρ × V)) : List (ρ × V) :=
  ops.foldl (fun xs op => op.denote cmp xs) xs

/-- Every operation is valid where it is called. -/
def ValidSkips (cmp : V → V → ℤ) (s : Set V) (header : ρ) :
    List (SkipOp ρ V) → List (ρ × V) → Prop
  | [], _ => True
  | op :: ops, xs => op.Valid s header xs ∧ ValidSkips cmp s header ops (op.denote cmp xs)

theorem skipRuns_holds (compares : Compares cmp s) {ops : List (SkipOp ρ V)}
    (holds : Holds cmp s list xs)
    (valid : ValidSkips cmp s list.header ops (xs.map SkipEntry.pair)) :
    ∃ list' xs', skipRuns cmp ops list = some list' ∧ Holds cmp s list' xs' ∧
      xs'.map SkipEntry.pair = skipDenotes cmp ops (xs.map SkipEntry.pair) := by
  induction ops generalizing list xs with
  | nil => exact ⟨list, xs, rfl, holds, rfl⟩
  | cons op ops ih =>
      rcases op.run_holds holds compares valid.1 with ⟨list', xs', run, header, holds', eq⟩
      rcases ih holds' (by rw [eq, header]; exact valid.2) with ⟨list'', xs'', runs, holds'', eq'⟩
      rw [eq] at eq'
      refine ⟨list'', xs'', ?_, holds'', eq'⟩
      unfold skipRuns
      rw [run]
      exact runs

theorem create_holds (header : ρ) : Holds cmp s (Skiplist.create (V := V) header) [] := by
  have cell : (Skiplist.create (V := V) header).nodes header =
      some ⟨none, List.replicate skiplistMaxLevel none⟩ := Function.update_self _ _ _
  have shape : shapeOf (Skiplist.create (V := V) header).nodes header =
      some (none, skiplistMaxLevel) := fieldOf_of_eq cell
  have links {i : ℕ} (bound : i < skiplistMaxLevel) :
      forwardAt (Skiplist.create (V := V) header).nodes i header = some none := by
    unfold forwardAt
    rw [cell, Option.bind_some, List.getElem?_replicate_of_lt bound]
  constructor
  · constructor
    · exact shape
    · exact fun x mem => absurd mem List.not_mem_nil
    · exact fun x mem => absurd mem List.not_mem_nil
    · exact fun i bound => ⟨rfl, none, links bound, rfl⟩
    · exact List.Pairwise.nil
    · intro a used
      rcases eq_or_ne a header with rfl | differ
      · exact Or.inl rfl
      · exact absurd (Function.update_of_ne differ _ _) used
    · exact ⟨le_refl 1, Nat.succ_le_succ (Nat.zero_le 15)⟩
    · rfl
  · exact fun x mem => absurd mem List.not_mem_nil

/-! ## Refinement -/

/-- The skiplist is these nodes in the order of their values, and behaves as such a list. -/
structure RefinesSorted (cmp : V → V → ℤ) (s : Set V) (list : Skiplist ρ V)
    (xs : List (SkipEntry ρ V)) : Prop where
  sorted : xs.Pairwise fun x y => cmp x.value y.value < 0
  values : ∀ x ∈ xs, shapeOf list.nodes x.node = some (some x.value, x.height)
  bottom : Chain (forwardAt list.nodes 0) (some list.header)
    (list.header :: xs.map SkipEntry.node) none
  levels : ∀ i < skiplistMaxLevel, Chain (forwardAt list.nodes i) (some list.header)
    (list.header :: levelNodes i xs) none
  part : ∀ i, (levelNodes (i + 1) xs).Sublist (levelNodes i xs)
  len : list.len = xs.length
  level : list.level ≤ skiplistMaxLevel
  covers : ∀ i, levelNodes i xs ≠ [] → i < list.level
  refused : ∀ v ∈ s, (∃ x ∈ xs, x.value = v) → ∀ node draws,
    list.insert cmp node draws v = some (list, false)
  accepted : ∀ v ∈ s, (∀ x ∈ xs, x.value ≠ v) → ∀ node draws, list.nodes node = none →
    ∃ list', list.insert cmp node draws v = some (list', true)
  found : ∀ v ∈ s, ∃ found, list.find cmp v = some found ∧
    ∀ node, found = some node ↔ ∃ x ∈ xs, x.node = node ∧ x.value = v
  deleted : ∀ x ∈ xs, ∃ list', list.delete cmp x.node = some list' ∧
    ∀ i < skiplistMaxLevel, Chain (forwardAt list'.nodes i) (some list.header)
      (list.header :: (levelNodes i xs).filter (· ≠ x.node)) none
  swept : ∀ chosen : ρ → Bool, ∃ iter list', list.getIterator = some iter ∧
    (Skiplist.iterator cmp).sweep (Iterator.justGiven chosen) (xs.length + 1) [] list iter =
      some (xs.map SkipEntry.node, list') ∧
    Holds cmp s list' (xs.filter fun x => !chosen x.node)

theorem levelNodes_without (i : ℕ) (xs : List (SkipEntry ρ V)) (a : ρ) :
    levelNodes i (without SkipEntry.node xs a) = (levelNodes i xs).filter (· ≠ a) := by
  unfold levelNodes without
  rw [List.filter_map, List.filter_comm]
  rfl

theorem Holds.refines (holds : Holds cmp s list xs) (compares : Compares cmp s) :
    RefinesSorted cmp s list xs where
  sorted := holds.levels.sorted
  values := holds.levels.cells
  bottom := holds.chain
  levels := holds.levels.chains
  part := fun i => levelNodes_sublist i xs
  len := holds.levels.len
  level := holds.levels.level.2
  covers := fun i some => Nat.lt_of_not_le fun high => some (holds.levels.levelNodes_eq_nil high)
  refused := fun _ mem present node draws => holds.insert_present compares mem present node draws
  accepted := by
    intro v mem absent node draws fresh
    rcases holds.insert_absent compares mem absent fresh draws with
      ⟨_, _, list', _, _, _, inserted, _⟩
    exact ⟨list', inserted⟩
  found := fun _ mem => holds.find_eq compares mem
  deleted := by
    intro x mem
    rcases holds.delete_eq compares mem with ⟨list', deleted, header, holds'⟩
    refine ⟨list', deleted, ?_⟩
    intro i bound
    have chain := holds'.levels.chains i bound
    rw [header, levelNodes_without] at chain
    exact chain
  swept := fun chosen => holds.sweep compares chosen

end ViabtcServer.Container
