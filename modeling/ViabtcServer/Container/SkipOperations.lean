import ViabtcServer.Container.SkipLevels

/-!
# Operations on a skiplist

`skiplist_find` comes to the node with the value, `skiplist_insert` puts a node
between the smaller and the larger values and `skiplist_delete` takes one out,
on every level.
-/

namespace ViabtcServer.Container

open Memory

variable {ρ V : Type} {cmp : V → V → ℤ} {s : Set V} {list : Skiplist ρ V}
  {lo hi xs : List (SkipEntry ρ V)} {x : SkipEntry ρ V} {i : ℕ} {v : V}

namespace Levels

/-- What the last node below points to. -/
theorem lastBelow_link (levels : Levels cmp list (lo ++ hi)) (bound : i < skiplistMaxLevel) :
    forwardAt list.nodes i (lastBelow list lo i) = some (levelNodes i hi).head? := by
  have chain := levels.chains i bound
  have split : list.header :: levelNodes i lo =
      (list.header :: levelNodes i lo).dropLast ++ [lastBelow list lo i] := by
    have ends := List.dropLast_append_getLast (List.cons_ne_nil list.header (levelNodes i lo))
    rw [List.getLast_eq_getLastD] at ends
    exact ends.symm
  rw [levelNodes_append, ← List.cons_append, split, List.append_assoc] at chain
  have link := chain.link_eq
  rw [Option.or_none] at link
  exact link

/-- Above the level of the list there is nothing. -/
theorem levelNodes_eq_nil (levels : Levels cmp list xs) (high : list.level ≤ i) :
    levelNodes i xs = [] := by
  apply List.eq_nil_iff_forall_not_mem.mpr
  intro a mem
  rcases mem_levelNodes.mp mem with ⟨x, inside, less, _⟩
  exact absurd ((levels.heights x inside).2.trans high) (Nat.not_le.mpr less)

theorem lastBelow_eq_header (levels : Levels cmp list (lo ++ hi)) (high : list.level ≤ i) :
    lastBelow list lo i = list.header := by
  have none := levels.levelNodes_eq_nil high
  rw [levelNodes_append] at none
  unfold lastBelow
  rw [(List.append_eq_nil_iff.mp none).1]
  rfl

/-- The value of the node a search comes to. -/
theorem lastBelow_value (levels : Levels cmp list (lo ++ hi)) :
    ∃ height, shapeOf list.nodes (lastBelow list lo 0) =
      some (lo.getLast?.map SkipEntry.value, height) := by
  have all : levelNodes 0 lo = lo.map SkipEntry.node :=
    levelNodes_zero fun x mem => (levels.heights x (List.mem_append_left hi mem)).1
  unfold lastBelow
  rw [all]
  rcases List.eq_nil_or_concat lo with rfl | ⟨front, x, rfl⟩
  · exact ⟨skiplistMaxLevel, levels.header⟩
  · rw [List.concat_eq_append] at levels ⊢
    rw [List.map_append, List.map_singleton, List.getLastD_concat, List.getLast?_concat]
    exact ⟨x.height, levels.cells x
      (List.mem_append_left hi (List.mem_append_right front List.mem_cons_self))⟩

/-- A whole search. -/
theorem search_all (levels : Levels cmp list (lo ++ hi)) (pass : V → Bool)
    (passes : ∀ x ∈ lo, pass x.value = true) (fails : ∀ x ∈ hi, pass x.value = false) :
    ∃ update, list.search pass list.level list.header (fun _ => none) =
      some (lastBelow list lo 0, update) ∧
        ∀ i < list.level, update i = some (lastBelow list lo i) := by
  rcases levels.search passes fails levels.level.2 (fun _ _ => List.mem_cons_self) fun _ => none
    with ⟨update, run, eq⟩
  rw [if_neg (Nat.one_le_iff_ne_zero.mp levels.level.1)] at run
  exact ⟨update, run, fun i less => by rw [eq i, if_pos less]⟩

/-- A value of the comparison's domain splits the list. -/
theorem split (levels : Levels cmp list xs) (compares : Compares cmp s)
    (inside : ∀ x ∈ xs, x.value ∈ s) (mem : v ∈ s) :
    (∃ lo x hi, xs = lo ++ x :: hi ∧ x.value = v ∧ (∀ y ∈ lo, cmp y.value v < 0) ∧
      ∀ y ∈ hi, 0 < cmp y.value v) ∨
    ∃ lo hi, xs = lo ++ hi ∧ (∀ y ∈ lo, cmp y.value v < 0) ∧ ∀ y ∈ hi, 0 < cmp y.value v := by
  have sorted := levels.sorted
  clear levels
  induction xs with
  | nil => exact Or.inr ⟨[], [], rfl, nofun, nofun⟩
  | cons x xs ih =>
      rcases List.pairwise_cons.mp sorted with ⟨first, sorted'⟩
      have here := inside x List.mem_cons_self
      have later : ∀ y ∈ xs, y.value ∈ s := fun y mem => inside y (List.mem_cons_of_mem x mem)
      have extend {lo : List (SkipEntry ρ V)} (less : cmp x.value v < 0)
          (below : ∀ y ∈ lo, cmp y.value v < 0) : ∀ y ∈ x :: lo, cmp y.value v < 0 := by
        rintro y (_ | ⟨_, mem⟩)
        · exact less
        · exact below y mem
      rcases Int.lt_trichotomy (cmp x.value v) 0 with less | equal | more
      · rcases ih later sorted' with
          ⟨lo, y, hi, rfl, same, below, above⟩ | ⟨lo, hi, rfl, below, above⟩
        · exact Or.inl ⟨x :: lo, y, hi, rfl, same, extend less below, above⟩
        · exact Or.inr ⟨x :: lo, hi, rfl, extend less below, above⟩
      · have same := (compares.zero_iff here mem).mp equal
        refine Or.inl ⟨[], x, xs, rfl, same, nofun, ?_⟩
        intro y among
        rw [← same]
        exact (compares.flip here (later y among)).mp (first y among)
      · refine Or.inr ⟨[], x :: xs, rfl, nofun, ?_⟩
        rintro y (_ | ⟨_, among⟩)
        · exact more
        · apply (compares.flip mem (later y among)).mp
          exact compares.trans mem here (later y among) ((compares.flip mem here).mpr more)
            (first y among)

/-! ## Answers -/

/-- The node a search for a value that is present comes to. -/
theorem search_present (levels : Levels cmp list (lo ++ x :: hi)) (zero : cmp x.value v = 0)
    (below : ∀ y ∈ lo, cmp y.value v < 0) (above : ∀ y ∈ hi, 0 < cmp y.value v) :
    ∃ update cell, list.search (fun other => cmp other v ≤ 0) list.level list.header
      (fun _ => none) = some (x.node, update) ∧ list.nodes x.node = some cell ∧
        ∃ other ∈ cell.value, cmp other v = 0 := by
  have levels' : Levels cmp list ((lo ++ [x]) ++ hi) := by
    rw [List.append_assoc]
    exact levels
  have passes : ∀ y ∈ lo ++ [x], decide (cmp y.value v ≤ 0) = true := by
    intro y mem
    apply decide_eq_true
    rcases List.mem_append.mp mem with inLo | last
    · exact Int.le_of_lt (below y inLo)
    · rw [List.mem_singleton.mp last]
      exact Int.le_of_eq zero
  have fails : ∀ y ∈ hi, decide (cmp y.value v ≤ 0) = false :=
    fun y mem => decide_eq_false (Int.not_le.mpr (above y mem))
  rcases levels'.search_all (fun other => cmp other v ≤ 0) passes fails with ⟨update, run, _⟩
  have all : levelNodes 0 (lo ++ [x]) = (lo ++ [x]).map SkipEntry.node :=
    levelNodes_zero fun y mem => (levels'.heights y (List.mem_append_left hi mem)).1
  have last : lastBelow list (lo ++ [x]) 0 = x.node := by
    unfold lastBelow
    rw [all, List.map_append, List.map_singleton, List.getLastD_concat]
  rw [last] at run
  rcases exists_cell (levels.cells x (List.mem_append_right lo List.mem_cons_self)) with
    ⟨cell, found, eq⟩
  exact ⟨update, cell, run, found, x.value, congrArg Prod.fst eq, zero⟩

/-- The node a search for a value that is not present comes to. -/
theorem search_absent (levels : Levels cmp list (lo ++ hi))
    (below : ∀ y ∈ lo, cmp y.value v < 0) (above : ∀ y ∈ hi, 0 < cmp y.value v) :
    ∃ update cell, list.search (fun other => cmp other v ≤ 0) list.level list.header
      (fun _ => none) = some (lastBelow list lo 0, update) ∧
        list.nodes (lastBelow list lo 0) = some cell ∧
        (¬ ∃ other ∈ cell.value, cmp other v = 0) ∧
        ∀ i < list.level, update i = some (lastBelow list lo i) := by
  have passes : ∀ y ∈ lo, decide (cmp y.value v ≤ 0) = true :=
    fun y mem => decide_eq_true (Int.le_of_lt (below y mem))
  have fails : ∀ y ∈ hi, decide (cmp y.value v ≤ 0) = false :=
    fun y mem => decide_eq_false (Int.not_le.mpr (above y mem))
  rcases levels.search_all (fun other => cmp other v ≤ 0) passes fails with ⟨update, run, updates⟩
  rcases levels.lastBelow_value with ⟨height, shape⟩
  rcases exists_cell shape with ⟨cell, found, eq⟩
  have value : cell.value = lo.getLast?.map SkipEntry.value := congrArg Prod.fst eq
  refine ⟨update, cell, run, found, ?_, updates⟩
  rintro ⟨other, mem, zero⟩
  rw [value] at mem
  rcases Option.map_eq_some_iff.mp mem with ⟨y, last, rfl⟩
  exact absurd zero (Int.ne_of_lt (below y (List.mem_of_getLast? last)))

theorem find_present (levels : Levels cmp list (lo ++ x :: hi)) (zero : cmp x.value v = 0)
    (below : ∀ y ∈ lo, cmp y.value v < 0) (above : ∀ y ∈ hi, 0 < cmp y.value v) :
    list.find cmp v = some (some x.node) := by
  rcases levels.search_present zero below above with ⟨update, cell, run, found, there⟩
  unfold Skiplist.find
  rw [run, Option.bind_some]
  simp only
  rw [found, Option.map_some, if_pos there]

theorem find_absent (levels : Levels cmp list (lo ++ hi))
    (below : ∀ y ∈ lo, cmp y.value v < 0) (above : ∀ y ∈ hi, 0 < cmp y.value v) :
    list.find cmp v = some none := by
  rcases levels.search_absent below above with ⟨update, cell, run, found, none, _⟩
  unfold Skiplist.find
  rw [run, Option.bind_some]
  simp only
  rw [found, Option.map_some, if_neg none]

end Levels

/-! ## One more node -/

section Insert

variable [DecidableEq ρ] {nodes : Heap ρ (SkipNode ρ V)} {a : ρ}

omit [DecidableEq ρ] in
theorem shapeOf_ne_none : shapeOf nodes a ≠ none ↔ nodes a ≠ none :=
  not_congr Option.map_eq_none_iff

theorem forwardAt_update (i : ℕ) (content : Option (SkipNode ρ V)) :
    forwardAt (Function.update nodes a content) i =
      Function.update (forwardAt nodes i) a (content.bind fun cell => cell.forward[i]?) := by
  funext b
  unfold forwardAt
  rcases eq_or_ne b a with rfl | differ
  · rw [Function.update_self, Function.update_self]
  · rw [Function.update_of_ne differ, Function.update_of_ne differ]

theorem randomLevel_bounds (draws : ℕ) : 1 ≤ Skiplist.randomLevel draws ∧
    Skiplist.randomLevel draws ≤ skiplistMaxLevel := by
  unfold Skiplist.randomLevel skiplistMaxLevel
  simp only
  split <;> omega

namespace Levels

omit [DecidableEq ρ] in
theorem alive (levels : Levels cmp list xs) (mem : a ∈ list.header :: xs.map SkipEntry.node) :
    list.nodes a ≠ none := by
  apply shapeOf_ne_none.mp
  rcases List.mem_cons.mp mem with rfl | inside
  · rw [levels.header]
    exact Option.some_ne_none _
  · rcases List.mem_map.mp inside with ⟨x, among, rfl⟩
    rw [levels.cells x among]
    exact Option.some_ne_none _

omit [DecidableEq ρ] in
theorem mem_all {lo : List (SkipEntry ρ V)} (mem : a ∈ list.header :: levelNodes i lo) :
    a ∈ list.header :: lo.map SkipEntry.node := by
  rcases List.mem_cons.mp mem with rfl | inside
  · exact List.mem_cons_self
  · rcases mem_levelNodes.mp inside with ⟨x, among, _, same⟩
    exact List.mem_cons_of_mem _ (List.mem_map.mpr ⟨x, among, same⟩)

omit [DecidableEq ρ] in
/-- The header and the nodes are different. -/
theorem nodup (levels : Levels cmp list xs) : (list.header :: xs.map SkipEntry.node).Nodup := by
  have chain := levels.chains 0 (Nat.zero_lt_succ 15)
  rw [levelNodes_zero fun x mem => (levels.heights x mem).1] at chain
  exact chain.nodup

omit [DecidableEq ρ] in
/-- A node that is not allocated is on no level. -/
theorem fresh_notMem (levels : Levels cmp list xs) (fresh : list.nodes a = none) (i : ℕ) :
    a ∉ list.header :: levelNodes i xs :=
  fun mem => levels.alive (mem_all mem) fresh

/-- A level with the new node after the last one below. -/
theorem chain_insert (levels : Levels cmp list (lo ++ hi)) (fresh : list.nodes x.node = none)
    (bound : i < skiplistMaxLevel) (high : i < x.height) :
    Chain (Function.update (Function.update (forwardAt list.nodes i) x.node
        (some (levelNodes i hi).head?)) (lastBelow list lo i) (some (some x.node)))
      (some list.header) (list.header :: levelNodes i (lo ++ x :: hi)) none := by
  have chain := levels.chains i bound
  have new := levels.fresh_notMem fresh i
  rw [levelNodes_append, ← List.cons_append] at chain new
  rw [levelNodes_append, levelNodes_cons, if_pos high, ← List.cons_append]
  have apartLo {b : ρ} (mem : b ∈ list.header :: levelNodes i lo) : b ≠ x.node := by
    rintro rfl
    exact new (List.mem_append_left _ mem)
  have apartHi {b : ρ} (mem : b ∈ levelNodes i hi) : b ≠ x.node := by
    rintro rfl
    exact new (List.mem_append_right _ mem)
  apply chain.insert new
  · rw [Function.update_of_ne (apartLo (lastBelow_mem list lo i)).symm, Function.update_self]
  · intro b mem
    rw [relink_cons]
    unfold lastBelow
    rcases eq_or_ne b ((levelNodes i lo).getLastD list.header) with rfl | differ
    · rw [Function.update_self, Function.update_self]
    · rw [Function.update_of_ne differ, Function.update_of_ne differ,
        Function.update_of_ne (apartLo mem)]
  · intro b mem
    have other : b ≠ lastBelow list lo i := by
      rintro rfl
      exact List.disjoint_of_nodup_append chain.nodup (lastBelow_mem list lo i) mem
    rw [Function.update_of_ne other, Function.update_of_ne (apartHi mem)]

/-- A level the new node is not on. -/
theorem chain_above (levels : Levels cmp list (lo ++ hi)) (fresh : list.nodes x.node = none)
    (bound : i < skiplistMaxLevel) (low : ¬ i < x.height) (content : Option (Option ρ)) :
    Chain (Function.update (forwardAt list.nodes i) x.node content) (some list.header)
      (list.header :: levelNodes i (lo ++ x :: hi)) none := by
  rw [levelNodes_append, levelNodes_cons, if_neg low, ← levelNodes_append]
  exact (levels.chains i bound).update_of_notMem (levels.fresh_notMem fresh i)

/-- The values and the heights with the new node. -/
theorem cells_insert {nodes : Heap ρ (SkipNode ρ V)} (levels : Levels cmp list (lo ++ hi))
    (fresh : list.nodes x.node = none) (shape : shapeOf nodes =
      Function.update (shapeOf list.nodes) x.node (some (some x.value, x.height))) :
    shapeOf nodes list.header = some (none, skiplistMaxLevel) ∧
      ∀ y ∈ lo ++ x :: hi, shapeOf nodes y.node = some (some y.value, y.height) := by
  have apart {b : ρ} (mem : b ∈ list.header :: (lo ++ hi).map SkipEntry.node) : b ≠ x.node := by
    rintro rfl
    exact levels.alive mem fresh
  have old {y : SkipEntry ρ V} (among : y ∈ lo ++ hi) :
      shapeOf nodes y.node = some (some y.value, y.height) := by
    rw [shape, Function.update_of_ne (apart (List.mem_cons_of_mem _ (List.mem_map_of_mem among))),
      levels.cells y among]
  constructor
  · rw [shape, Function.update_of_ne (apart List.mem_cons_self), levels.header]
  · intro y mem
    rcases List.mem_append.mp mem with inLo | inRest
    · exact old (List.mem_append_left hi inLo)
    · rcases List.mem_cons.mp inRest with rfl | inHi
      · rw [shape, Function.update_self]
      · exact old (List.mem_append_right lo inHi)

/-- Nothing else is allocated. -/
theorem live_insert {nodes : Heap ρ (SkipNode ρ V)} (levels : Levels cmp list (lo ++ hi))
    (shape : shapeOf nodes =
      Function.update (shapeOf list.nodes) x.node (some (some x.value, x.height)))
    {b : ρ} (used : nodes b ≠ none) :
    b = list.header ∨ b ∈ (lo ++ x :: hi).map SkipEntry.node := by
  rw [← shapeOf_ne_none, shape] at used
  rw [List.map_append, List.map_cons, List.mem_append, List.mem_cons]
  rcases eq_or_ne b x.node with rfl | differ
  · exact Or.inr (Or.inr (Or.inl rfl))
  · rw [Function.update_of_ne differ, shapeOf_ne_none] at used
    rcases levels.live b used with header | inside
    · exact Or.inl header
    · rw [List.map_append, List.mem_append] at inside
      rcases inside with inLo | inHi
      · exact Or.inr (Or.inl inLo)
      · exact Or.inr (Or.inr (Or.inr inHi))

/-- The skiplist with a node between two parts, linked on its levels. -/
theorem insert_links (levels : Levels cmp list (lo ++ hi)) (fresh : list.nodes x.node = none)
    (height : 1 ≤ x.height ∧ x.height ≤ skiplistMaxLevel)
    (below : ∀ y ∈ lo, cmp y.value x.value < 0) (above : ∀ y ∈ hi, cmp x.value y.value < 0)
    {update : ℕ → Option ρ} (updates : ∀ i < x.height, update i = some (lastBelow list lo i)) :
    ∃ nodes, Skiplist.linkLevels x.node update x.height
        (list.nodes.alloc x.node ⟨some x.value, List.replicate x.height none⟩) = some nodes ∧
      Levels cmp { list with level := max list.level x.height, len := list.len + 1, nodes }
        (lo ++ x :: hi) := by
  have links₀ (j : ℕ) : forwardAt (list.nodes.alloc x.node
      ⟨some x.value, List.replicate x.height none⟩) j = Function.update
        (forwardAt list.nodes j) x.node (List.replicate x.height none)[j]? :=
    forwardAt_update j _
  have last {j : ℕ} (bound : j < skiplistMaxLevel) : forwardAt (list.nodes.alloc x.node
      ⟨some x.value, List.replicate x.height none⟩) j (lastBelow list lo j) =
        some (levelNodes j hi).head? := by
    have other : lastBelow list lo j ≠ x.node := by
      have new := levels.fresh_notMem fresh j
      rw [levelNodes_append, ← List.cons_append] at new
      exact fun same => new (List.mem_append_left _ (same ▸ lastBelow_mem list lo j))
    rw [links₀, Function.update_of_ne other, levels.lastBelow_link bound]
  rcases linkLevels_eq updates
    (fun j less => by
      rw [last (less.trans_le height.2)]
      exact Option.some_ne_none _)
    (fun j less => by
      rw [links₀, Function.update_self, List.getElem?_replicate_of_lt less]
      exact Option.some_ne_none _) with ⟨nodes, run, shape, links⟩
  rw [show shapeOf (list.nodes.alloc x.node ⟨some x.value, List.replicate x.height none⟩) =
    Function.update (shapeOf list.nodes) x.node (some (some x.value, x.height)) by
      unfold shapeOf
      rw [fieldOf_alloc, List.length_replicate]] at shape
  rcases levels.cells_insert fresh shape with ⟨header, cells⟩
  refine ⟨nodes, run, header, cells, ?_, ?_, ?_, fun b => levels.live_insert shape, ?_, ?_⟩
  · intro y mem
    have old {y : SkipEntry ρ V} (among : y ∈ lo ++ hi) :
        1 ≤ y.height ∧ y.height ≤ max list.level x.height :=
      ⟨(levels.heights y among).1, (levels.heights y among).2.trans (Nat.le_max_left _ _)⟩
    rcases List.mem_append.mp mem with inLo | inRest
    · exact old (List.mem_append_left hi inLo)
    · rcases List.mem_cons.mp inRest with rfl | inHi
      · exact ⟨height.1, Nat.le_max_right _ _⟩
      · exact old (List.mem_append_right lo inHi)
  · intro j bound
    change Chain (forwardAt nodes j) (some list.header) _ none
    by_cases high : j < x.height
    · rw [links, if_pos high, last bound, links₀, Function.update_idem]
      exact levels.chain_insert fresh bound high
    · rw [links, if_neg high, links₀]
      exact levels.chain_above fresh bound high _
  · rcases List.pairwise_append.mp levels.sorted with ⟨first, second, cross⟩
    apply List.pairwise_append.mpr
    refine ⟨first, List.pairwise_cons.mpr ⟨above, second⟩, ?_⟩
    intro y inLo z inRest
    rcases List.mem_cons.mp inRest with rfl | inHi
    · exact below y inLo
    · exact cross y inLo z inHi
  · exact ⟨levels.level.1.trans (Nat.le_max_left _ _), Nat.max_le.mpr ⟨levels.level.2, height.2⟩⟩
  · change list.len + 1 = (lo ++ x :: hi).length
    rw [levels.len, List.length_append, List.length_append, List.length_cons]
    rfl

/-- `skiplist_insert` of a value that is not present. -/
theorem insert_absent (levels : Levels cmp list (lo ++ hi)) (fresh : list.nodes a = none)
    (below : ∀ y ∈ lo, cmp y.value v < 0) (above : ∀ y ∈ hi, 0 < cmp y.value v)
    (above' : ∀ y ∈ hi, cmp v y.value < 0) (draws : ℕ) :
    ∃ list', list.insert cmp a draws v = some (list', true) ∧ list'.header = list.header ∧
      Levels cmp list' (lo ++ ⟨a, v, Skiplist.randomLevel draws⟩ :: hi) := by
  rcases levels.search_absent below above with ⟨update, cell, run, found, none, updates⟩
  have headers : ∀ i < Skiplist.randomLevel draws,
      (if list.level ≤ i ∧ i < Skiplist.randomLevel draws then some list.header else update i) =
        some (lastBelow list lo i) := by
    intro i less
    by_cases high : list.level ≤ i
    · rw [if_pos ⟨high, less⟩, levels.lastBelow_eq_header high]
    · rw [if_neg fun both => high both.1, updates i (Nat.lt_of_not_le high)]
  rcases levels.insert_links (x := ⟨a, v, Skiplist.randomLevel draws⟩) fresh
    (randomLevel_bounds draws) below above' headers with ⟨nodes, linked, levels'⟩
  refine ⟨{ list with
    level := max list.level (Skiplist.randomLevel draws)
    len := list.len + 1
    nodes }, ?_, rfl, levels'⟩
  unfold Skiplist.insert
  rw [run, Option.bind_some]
  simp only
  rw [found, Option.bind_some, if_neg none, linked]
  rfl

/-- `skiplist_insert` of a value that is present. -/
theorem insert_present (levels : Levels cmp list (lo ++ x :: hi)) (zero : cmp x.value v = 0)
    (below : ∀ y ∈ lo, cmp y.value v < 0) (above : ∀ y ∈ hi, 0 < cmp y.value v) (draws : ℕ) :
    list.insert cmp a draws v = some (list, false) := by
  rcases levels.search_present zero below above with ⟨update, cell, run, found, there⟩
  unfold Skiplist.insert
  rw [run, Option.bind_some]
  simp only
  rw [found, Option.bind_some, if_pos there]

end Levels

end Insert

/-! ## One node less -/

section Delete

variable [DecidableEq ρ]

omit [DecidableEq ρ] in
/-- The levels that became empty are left out. -/
theorem shrinkLevel_eq {nodes : Heap ρ (SkipNode ρ V)} {header : ρ} {n : ℕ}
    (there : ∀ i < n, forwardAt nodes i header ≠ none) (positive : 1 ≤ n) :
    ∃ m, Skiplist.shrinkLevel nodes header n = some m ∧ 1 ≤ m ∧ m ≤ n ∧
      ∀ i, m ≤ i → i < n → forwardAt nodes i header = some none := by
  induction n with
  | zero => exact absurd positive (Nat.not_succ_le_zero 0)
  | succ n ih =>
      unfold Skiplist.shrinkLevel
      by_cases single : n = 0
      · subst single
        rw [if_pos rfl]
        exact ⟨1, rfl, le_refl 1, le_refl 1, fun i more less => absurd less (Nat.not_lt.mpr more)⟩
      · rcases Option.ne_none_iff_exists'.mp (there n (Nat.lt_succ_self n)) with ⟨next, linked⟩
        rw [if_neg single, linked, Option.bind_some]
        by_cases empty : next = none
        · rw [if_pos empty]
          rcases ih (fun i less => there i (Nat.lt_succ_of_lt less))
            (Nat.one_le_iff_ne_zero.mpr single) with ⟨m, run, least, most, nothing⟩
          refine ⟨m, run, least, Nat.le_succ_of_le most, ?_⟩
          intro i more less
          rcases Nat.lt_succ_iff_lt_or_eq.mp less with below | rfl
          · exact nothing i more below
          · rw [linked, empty]
        · rw [if_neg empty]
          exact ⟨n + 1, rfl, Nat.succ_le_succ (Nat.zero_le n), le_refl _,
            fun i more less => absurd less (Nat.not_lt.mpr more)⟩

namespace Levels

variable {l r : List (SkipEntry ρ V)}

omit [DecidableEq ρ] in
/-- The node after the last one below is the deleted one exactly on its levels. -/
theorem lastBelow_points (levels : Levels cmp list (l ++ x :: r)) (bound : i < skiplistMaxLevel) :
    forwardAt list.nodes i (lastBelow list l i) = some (some x.node) ↔ i < x.height := by
  rw [levels.lastBelow_link bound, levelNodes_cons]
  have nodup := levels.nodup
  rw [List.map_append, List.map_cons, ← List.cons_append] at nodup
  have apart := (List.nodup_cons.mp (List.nodup_append.mp nodup).2.1).1
  by_cases high : i < x.height
  · rw [if_pos high]
    exact iff_of_true rfl high
  · rw [if_neg high]
    apply iff_of_false _ high
    intro first
    have mem := List.mem_of_head? (Option.some.inj first)
    rcases mem_levelNodes.mp mem with ⟨y, among, _, same⟩
    exact apart (List.mem_map.mpr ⟨y, among, same⟩)

omit [DecidableEq ρ] in
/-- What a node points to. -/
theorem node_link (levels : Levels cmp list (l ++ x :: r)) (bound : i < skiplistMaxLevel)
    (high : i < x.height) : forwardAt list.nodes i x.node = some (levelNodes i r).head? := by
  have chain := levels.chains i bound
  rw [levelNodes_append, levelNodes_cons, if_pos high, ← List.cons_append] at chain
  rw [chain.link_eq, Option.or_none]

omit [DecidableEq ρ] in
/-- The other nodes and the header are different from a node. -/
theorem node_notMem (levels : Levels cmp list (l ++ x :: r)) :
    x.node ∉ list.header :: (l ++ r).map SkipEntry.node := by
  intro mem
  have nodup := levels.nodup
  rw [List.map_append, List.map_cons, ← List.cons_append] at nodup
  rcases List.nodup_append.mp nodup with ⟨_, second, cross⟩
  rw [List.map_append, ← List.cons_append] at mem
  rcases List.mem_append.mp mem with inL | inR
  · exact cross x.node inL x.node List.mem_cons_self rfl
  · exact (List.nodup_cons.mp second).1 inR

/-- A level on which the node is passed over. -/
theorem chain_remove (levels : Levels cmp list (l ++ x :: r)) (bound : i < skiplistMaxLevel)
    (high : i < x.height) (content : Option (Option ρ)) :
    Chain (Function.update (Function.update (forwardAt list.nodes i) (lastBelow list l i)
        (some (levelNodes i r).head?)) x.node content)
      (some list.header) (list.header :: levelNodes i (l ++ r)) none := by
  have chain := levels.chains i bound
  rw [levelNodes_append, levelNodes_cons, if_pos high, ← List.cons_append] at chain
  rw [levelNodes_append, ← List.cons_append]
  rcases List.nodup_append.mp chain.nodup with ⟨_, second, cross⟩
  apply chain.remove
  · intro b mem
    rw [Function.update_of_ne (cross b mem x.node List.mem_cons_self), relink_cons]
    rfl
  · intro b mem
    have other : b ≠ x.node := by
      rintro rfl
      exact (List.nodup_cons.mp second).1 mem
    rw [Function.update_of_ne other, Function.update_of_ne]
    exact (cross _ (lastBelow_mem list l i) b (List.mem_cons_of_mem _ mem)).symm

/-- A level the node is not on. -/
theorem chain_off (levels : Levels cmp list (l ++ x :: r)) (bound : i < skiplistMaxLevel)
    (low : ¬ i < x.height) (content : Option (Option ρ)) :
    Chain (Function.update (forwardAt list.nodes i) x.node content) (some list.header)
      (list.header :: levelNodes i (l ++ r)) none := by
  have chain := levels.chains i bound
  rw [levelNodes_append, levelNodes_cons, if_neg low, ← levelNodes_append] at chain
  exact chain.update_of_notMem fun mem => levels.node_notMem (mem_all mem)

/-- All levels once `unlinkLevels` is through and the node is freed. -/
theorem chains_unlink (levels : Levels cmp list (l ++ x :: r)) {nodes : Heap ρ (SkipNode ρ V)}
    (links : ∀ i, forwardAt nodes i =
      if i < list.level ∧
          forwardAt list.nodes i (lastBelow list l i) = some (some x.node) then
        Function.update (forwardAt list.nodes i) (lastBelow list l i)
          (forwardAt list.nodes i x.node)
      else forwardAt list.nodes i) (bound : i < skiplistMaxLevel) :
    Chain (forwardAt (Function.update nodes x.node none) i) (some list.header)
      (list.header :: levelNodes i (l ++ r)) none := by
  have member : x ∈ l ++ x :: r := List.mem_append_right l List.mem_cons_self
  rw [forwardAt_update, links]
  by_cases high : i < x.height
  · have points := (levels.lastBelow_points bound).mpr high
    rw [if_pos ⟨high.trans_le (levels.heights x member).2, points⟩, levels.node_link bound high]
    exact levels.chain_remove bound high _
  · rw [if_neg fun both => high ((levels.lastBelow_points bound).mp both.2)]
    exact levels.chain_off bound high _

omit [DecidableEq ρ] in
/-- The levels that are left out have no nodes. -/
theorem height_le {nodes : Heap ρ (SkipNode ρ V)} {header : ρ} {level top : ℕ}
    (chains : ∀ i < top, Chain (forwardAt nodes i) (some header) (header :: levelNodes i xs) none)
    (empty : ∀ i, level ≤ i → i < top → forwardAt nodes i header = some none)
    (mem : x ∈ xs) (high : x.height ≤ top) : x.height ≤ level := by
  by_contra exceeds
  -- the node would be on an empty level
  have inside : x.height - 1 < top := by omega
  have nothing := empty (x.height - 1) (by omega) inside
  have chain : Chain (forwardAt nodes (x.height - 1)) (some header)
      ([] ++ header :: levelNodes (x.height - 1) xs) none := chains (x.height - 1) inside
  have link := chain.link_eq
  rw [nothing, Option.or_none] at link
  have among : x.node ∈ levelNodes (x.height - 1) xs :=
    mem_levelNodes.mpr ⟨x, mem, by omega, rfl⟩
  rw [List.head?_eq_none_iff.mp (Option.some.inj link).symm] at among
  exact List.not_mem_nil among

omit [DecidableEq ρ] in
/-- What is allocated without the node. -/
theorem live_remove (levels : Levels cmp list (l ++ x :: r)) {b : ρ} (used : list.nodes b ≠ none)
    (other : b ≠ x.node) : b = list.header ∨ b ∈ (l ++ r).map SkipEntry.node := by
  rcases levels.live b used with first | inside
  · exact Or.inl first
  · rw [List.map_append, List.map_cons, List.mem_append, List.mem_cons] at inside
    rw [List.map_append, List.mem_append]
    rcases inside with inL | same | inR
    · exact Or.inr (Or.inl inL)
    · exact absurd same other
    · exact Or.inr (Or.inr inR)

/-- The skiplist without a node, which is passed over on its levels. -/
theorem unlink (levels : Levels cmp list (l ++ x :: r)) {update : ℕ → Option ρ}
    (updates : ∀ i < list.level, update i = some (lastBelow list l i)) :
    ∃ nodes level nodes', Skiplist.unlinkLevels x.node update list.level list.nodes = some nodes ∧
      Skiplist.shrinkLevel nodes list.header list.level = some level ∧
      nodes.free x.node = some nodes' ∧
      Levels cmp { list with level, len := list.len - 1, nodes := nodes' } (l ++ r) := by
  have below {j : ℕ} (less : j < list.level) : j < skiplistMaxLevel :=
    less.trans_le levels.level.2
  have member : x ∈ l ++ x :: r := List.mem_append_right l List.mem_cons_self
  have keep {y : SkipEntry ρ V} (mem : y ∈ l ++ r) : y ∈ l ++ x :: r := by
    rcases List.mem_append.mp mem with inL | inR
    · exact List.mem_append_left _ inL
    · exact List.mem_append_right l (List.mem_cons_of_mem x inR)
  have apart {b : ρ} (mem : b ∈ list.header :: (l ++ r).map SkipEntry.node) : b ≠ x.node := by
    rintro rfl
    exact levels.node_notMem mem
  rcases unlinkLevels_eq (x := x.node) updates
    (fun j less => by
      rw [levels.lastBelow_link (below less)]
      exact Option.some_ne_none _)
    (fun j less points => by
      rw [levels.node_link (below less) ((levels.lastBelow_points (below less)).mp points)]
      exact Option.some_ne_none _) with ⟨nodes, run, shape, links⟩
  have header : shapeOf nodes list.header = some (none, skiplistMaxLevel) := by
    rw [shape, levels.header]
  have used : nodes x.node ≠ none := by
    rw [← shapeOf_ne_none, shape, levels.cells x member]
    exact Option.some_ne_none _
  rcases shrinkLevel_eq (fun j less => forwardAt_ne_none header (below less)) levels.level.1 with
    ⟨level, shrunk, least, most, empty⟩
  have shape' : shapeOf (Function.update nodes x.node none) =
      Function.update (shapeOf list.nodes) x.node none := by
    unfold shapeOf
    rw [fieldOf_update]
    exact congrArg (fun f => Function.update f x.node none) shape
  refine ⟨nodes, level, Function.update nodes x.node none, run, shrunk, free_eq used, ?_⟩
  constructor
  · change shapeOf (Function.update nodes x.node none) list.header = some (none, skiplistMaxLevel)
    rw [shape', Function.update_of_ne (apart List.mem_cons_self), levels.header]
  · intro y mem
    change shapeOf (Function.update nodes x.node none) y.node = some (some y.value, y.height)
    rw [shape', Function.update_of_ne
      (apart (List.mem_cons_of_mem _ (List.mem_map_of_mem mem))), levels.cells y (keep mem)]
  · intro y mem
    rcases levels.heights y (keep mem) with ⟨positive, high⟩
    refine ⟨positive, height_le (fun j less => levels.chains_unlink links (below less)) ?_ mem high⟩
    intro j more less
    rw [forwardAt_update, Function.update_of_ne (apart List.mem_cons_self), empty j more less]
  · exact fun j bound => levels.chains_unlink links bound
  · rcases List.pairwise_append.mp levels.sorted with ⟨first, second, cross⟩
    apply List.pairwise_append.mpr
    exact ⟨first, (List.pairwise_cons.mp second).2,
      fun y inL z inR => cross y inL z (List.mem_cons_of_mem x inR)⟩
  · intro b alive
    change Function.update nodes x.node none b ≠ none at alive
    have other : b ≠ x.node := by
      rintro rfl
      exact alive (Function.update_self _ _ _)
    rw [Function.update_of_ne other, ← shapeOf_ne_none, shape, shapeOf_ne_none] at alive
    exact levels.live_remove alive other
  · exact ⟨least, most.trans levels.level.2⟩
  · change list.len - 1 = (l ++ r).length
    rw [levels.len, List.length_append, List.length_append, List.length_cons]
    rfl

/-- `skiplist_delete` of one of the nodes. -/
theorem delete_eq (levels : Levels cmp list (l ++ x :: r))
    (below : ∀ y ∈ l, cmp y.value x.value < 0) (above : ∀ y ∈ x :: r, 0 ≤ cmp y.value x.value) :
    ∃ list', list.delete cmp x.node = some list' ∧ list'.header = list.header ∧
      Levels cmp list' (l ++ r) := by
  rcases levels.search_all (fun other => cmp other x.value < 0)
    (fun y mem => decide_eq_true (below y mem))
    (fun y mem => decide_eq_false (Int.not_lt.mpr (above y mem))) with ⟨update, run, updates⟩
  rcases levels.unlink updates with ⟨nodes, level, nodes', unlinked, shrunk, freed, levels'⟩
  rcases exists_cell (levels.cells x (List.mem_append_right l List.mem_cons_self)) with
    ⟨cell, found, eq⟩
  have value : cell.value = some x.value := congrArg Prod.fst eq
  refine ⟨{ list with level, len := list.len - 1, nodes := nodes' }, ?_, rfl, levels'⟩
  unfold Skiplist.delete
  rw [found, Option.bind_some, value, Option.bind_some, run, Option.bind_some]
  simp only
  rw [unlinked, Option.bind_some, shrunk, Option.bind_some, freed]
  rfl

end Levels

end Delete

end ViabtcServer.Container
