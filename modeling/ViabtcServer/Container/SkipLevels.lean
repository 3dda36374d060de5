import ViabtcServer.Container.Skiplist

/-!
# The levels of a skiplist

On every level a skiplist links, in the same order, the nodes that are high
enough. A search leaves on every level the last node below the value; there a
node is linked or unlinked.
-/

namespace ViabtcServer.Container

open Memory

variable {ρ V : Type}

/-- A node with its value and the number of its levels. -/
structure SkipEntry (ρ V : Type) where
  node : ρ
  value : V
  height : ℕ

/-- The comparison is a strict order up to equality. -/
structure Compares (cmp : V → V → ℤ) (s : Set V) : Prop where
  zero_iff : ∀ {x y}, x ∈ s → y ∈ s → (cmp x y = 0 ↔ x = y)
  flip : ∀ {x y}, x ∈ s → y ∈ s → (cmp x y < 0 ↔ 0 < cmp y x)
  trans : ∀ {x y z}, x ∈ s → y ∈ s → z ∈ s → cmp x y < 0 → cmp y z < 0 → cmp x z < 0

/-- The nodes of one level. -/
def levelNodes (i : ℕ) (xs : List (SkipEntry ρ V)) : List ρ :=
  (xs.filter fun x => i < x.height).map SkipEntry.node

section LevelNodes

variable {i : ℕ} {xs ys : List (SkipEntry ρ V)} {x : SkipEntry ρ V}

theorem levelNodes_append (i : ℕ) (xs ys : List (SkipEntry ρ V)) :
    levelNodes i (xs ++ ys) = levelNodes i xs ++ levelNodes i ys := by
  unfold levelNodes
  rw [List.filter_append, List.map_append]

theorem levelNodes_cons (i : ℕ) (x : SkipEntry ρ V) (xs : List (SkipEntry ρ V)) :
    levelNodes i (x :: xs) = if i < x.height then x.node :: levelNodes i xs
      else levelNodes i xs := by
  unfold levelNodes
  rw [List.filter_cons]
  by_cases high : i < x.height
  · rw [if_pos high, if_pos (decide_eq_true high), List.map_cons]
  · rw [if_neg high, if_neg (by rw [decide_eq_true_iff]; exact high)]

theorem mem_levelNodes {a : ρ} :
    a ∈ levelNodes i xs ↔ ∃ x ∈ xs, i < x.height ∧ x.node = a := by
  unfold levelNodes
  rw [List.mem_map]
  constructor
  · rintro ⟨x, mem, same⟩
    rw [List.mem_filter, decide_eq_true_iff] at mem
    exact ⟨x, mem.1, mem.2, same⟩
  · rintro ⟨x, mem, high, same⟩
    exact ⟨x, List.mem_filter.mpr ⟨mem, decide_eq_true high⟩, same⟩

/-- Each level is part of the one below. -/
theorem levelNodes_sublist (i : ℕ) (xs : List (SkipEntry ρ V)) :
    (levelNodes (i + 1) xs).Sublist (levelNodes i xs) := by
  apply List.Sublist.map
  apply List.monotone_filter_right
  intro x high
  rw [decide_eq_true_iff] at high ⊢
  exact Nat.lt_of_succ_lt high

theorem levelNodes_zero (all : ∀ x ∈ xs, 1 ≤ x.height) :
    levelNodes 0 xs = xs.map SkipEntry.node := by
  have whole : (xs.filter fun x => 0 < x.height) = xs :=
    List.filter_eq_self.mpr fun x mem => decide_eq_true (all x mem)
  unfold levelNodes
  rw [whole]

end LevelNodes

/-- The skiplist has these nodes, linked on all their levels, in the order of their values. -/
structure Levels (cmp : V → V → ℤ) (list : Skiplist ρ V) (xs : List (SkipEntry ρ V)) : Prop where
  header : shapeOf list.nodes list.header = some (none, skiplistMaxLevel)
  cells : ∀ x ∈ xs, shapeOf list.nodes x.node = some (some x.value, x.height)
  heights : ∀ x ∈ xs, 1 ≤ x.height ∧ x.height ≤ list.level
  chains : ∀ i < skiplistMaxLevel, Chain (forwardAt list.nodes i) (some list.header)
    (list.header :: levelNodes i xs) none
  sorted : xs.Pairwise fun x y => cmp x.value y.value < 0
  live : ∀ a, list.nodes a ≠ none → a = list.header ∨ a ∈ xs.map SkipEntry.node
  level : 1 ≤ list.level ∧ list.level ≤ skiplistMaxLevel
  len : list.len = xs.length

/-! ## Searches -/

section Search

variable {cmp : V → V → ℤ} {list : Skiplist ρ V} {lo hi xs : List (SkipEntry ρ V)} {i : ℕ}
  {pass : V → Bool}

/-- A walk stops at the last node that passes. -/
theorem walkLevel_eq {nodes : Heap ρ (SkipNode ρ V)} {u : ρ} {front back : List (SkipEntry ρ V)}
    (cells : ∀ x ∈ front ++ back, shapeOf nodes x.node = some (some x.value, x.height))
    (chain : Chain (forwardAt nodes i) (some u) (u :: (front ++ back).map SkipEntry.node) none)
    (passes : ∀ x ∈ front, pass x.value = true) (fails : ∀ x ∈ back, pass x.value = false)
    {fuel : ℕ} (enough : front.length < fuel) :
    walkLevel nodes pass i fuel u = some ((front.map SkipEntry.node).getLastD u) := by
  induction front generalizing u fuel with
  | nil =>
      cases fuel with
      | zero => exact absurd enough (Nat.not_lt_zero _)
      | succ fuel =>
          rcases chain with ⟨_, next, linked, rest⟩
          unfold walkLevel
          rw [linked, Option.bind_some]
          cases back with
          | nil =>
              cases rest
              rfl
          | cons x back =>
              cases rest.1
              rcases exists_cell (cells x List.mem_cons_self) with ⟨cell, found, eq⟩
              have value : cell.value = some x.value := congrArg Prod.fst eq
              simp only
              rw [found, Option.bind_some, value, Option.bind_some,
                fails x List.mem_cons_self]
              rfl
  | cons x front ih =>
      cases fuel with
      | zero => exact absurd enough (Nat.not_lt_zero _)
      | succ fuel =>
          rcases chain with ⟨_, next, linked, rest⟩
          cases rest.1
          rcases exists_cell (cells x List.mem_cons_self) with ⟨cell, found, eq⟩
          have value : cell.value = some x.value := congrArg Prod.fst eq
          unfold walkLevel
          rw [linked, Option.bind_some]
          simp only
          rw [found, Option.bind_some, value, Option.bind_some, passes x List.mem_cons_self,
            if_pos rfl, ih (fun y mem => cells y (List.mem_cons_of_mem x mem)) rest
              (fun y mem => passes y (List.mem_cons_of_mem x mem))
              (Nat.lt_of_succ_lt_succ enough), List.map_cons, List.getLastD_cons]

/-- The last node below on every level, or the header. -/
def lastBelow (list : Skiplist ρ V) (lo : List (SkipEntry ρ V)) (i : ℕ) : ρ :=
  (levelNodes i lo).getLastD list.header

theorem lastBelow_mem (list : Skiplist ρ V) (lo : List (SkipEntry ρ V)) (i : ℕ) :
    lastBelow list lo i ∈ list.header :: levelNodes i lo :=
  List.getLastD_mem_cons

/-- What is behind a member of a list, and the last of it. -/
theorem behind_member {α : Type} {a u : α} {all before post : List α}
    (split : a :: all = before ++ u :: post) :
    post = all.drop before.length ∧ all.getLastD a = post.getLastD u := by
  have length : (before ++ [u]).length = before.length + 1 := by
    rw [List.length_append, List.length_singleton]
  have regroup : before ++ u :: post = (before ++ [u]) ++ post := by
    rw [List.append_assoc]
    rfl
  constructor
  · have dropped := congrArg (List.drop (before.length + 1)) split
    rw [List.drop_succ_cons, regroup, List.drop_left' length] at dropped
    exact dropped.symm
  · have last := congrArg List.getLast? split
    rw [List.getLast?_append, List.getLast?_cons, List.getLast?_cons] at last
    rw [List.getLastD_eq_getLast?, List.getLastD_eq_getLast?]
    exact Option.some.inj last

/-- A walk on one level, from any node below. -/
theorem Levels.walk (levels : Levels cmp list (lo ++ hi)) (bound : i < skiplistMaxLevel)
    (passes : ∀ x ∈ lo, pass x.value = true) (fails : ∀ x ∈ hi, pass x.value = false) {u : ρ}
    (below : u ∈ list.header :: levelNodes i lo) :
    walkLevel list.nodes pass i (list.len + 1) u = some (lastBelow list lo i) := by
  rcases List.append_of_mem below with ⟨before, post, split⟩
  rcases behind_member split with ⟨postEq, last⟩
  have chain := levels.chains i bound
  rw [levelNodes_append, ← List.cons_append, split, List.append_assoc] at chain
  rcases chain_append.mp chain with ⟨middle, _, rest⟩
  have start := rest.1
  subst start
  -- the entries behind `u` on this level, below the value and above it
  have front : post = ((lo.filter fun x => i < x.height).drop before.length).map
      SkipEntry.node := by
    rw [postEq, List.map_drop]
    rfl
  have inLo {x : SkipEntry ρ V}
      (mem : x ∈ (lo.filter fun x => i < x.height).drop before.length) : x ∈ lo :=
    List.mem_of_mem_filter (List.mem_of_mem_drop mem)
  have few : ((lo.filter fun x => i < x.height).drop before.length).length < list.len + 1 := by
    have drop := List.length_drop (l := lo.filter fun x => i < x.height) (i := before.length)
    have filter := List.length_filter_le (fun x : SkipEntry ρ V => decide (i < x.height)) lo
    rw [levels.len, List.length_append, drop]
    omega
  have cells : ∀ x ∈ (lo.filter fun x => i < x.height).drop before.length ++
      hi.filter fun x => i < x.height,
      shapeOf list.nodes x.node = some (some x.value, x.height) := by
    intro x mem
    apply levels.cells
    rcases List.mem_append.mp mem with below | above
    · exact List.mem_append_left _ (inLo below)
    · exact List.mem_append_right _ (List.mem_of_mem_filter above)
  unfold lastBelow
  rw [last, front]
  apply walkLevel_eq cells _ _ _ few
  · rw [List.map_append, ← front]
    exact rest
  · exact fun x mem => passes x (inLo mem)
  · exact fun x mem => fails x (List.mem_of_mem_filter mem)

/-- A search finds the last node below on every level. -/
theorem Levels.search (levels : Levels cmp list (lo ++ hi))
    (passes : ∀ x ∈ lo, pass x.value = true) (fails : ∀ x ∈ hi, pass x.value = false) {n : ℕ}
    (bound : n ≤ skiplistMaxLevel) {u : ρ} (below : ∀ i < n, u ∈ list.header :: levelNodes i lo)
    (update : ℕ → Option ρ) :
    ∃ update', list.search pass n u update =
      some (if n = 0 then u else lastBelow list lo 0, update') ∧
        ∀ i, update' i = if i < n then some (lastBelow list lo i) else update i := by
  induction n generalizing u update with
  | zero => exact ⟨update, rfl, fun i => (if_neg (Nat.not_lt_zero i)).symm⟩
  | succ n ih =>
      have below' : ∀ i < n, lastBelow list lo n ∈ list.header :: levelNodes i lo := by
        intro i less
        rcases List.mem_cons.mp (lastBelow_mem list lo n) with first | inside
        · rw [first]
          exact List.mem_cons_self
        · rcases mem_levelNodes.mp inside with ⟨x, mem, high, same⟩
          exact List.mem_cons_of_mem _ (mem_levelNodes.mpr ⟨x, mem, less.trans high, same⟩)
      rcases ih (Nat.le_of_succ_le bound) below'
        (Function.update update n (some (lastBelow list lo n))) with ⟨update', run, eq⟩
      refine ⟨update', ?_, ?_⟩
      · unfold Skiplist.search
        rw [levels.walk bound passes fails (below n (Nat.lt_succ_self n)), Option.bind_some, run,
          if_neg (Nat.succ_ne_zero n)]
        rcases Nat.eq_zero_or_pos n with rfl | positive
        · rw [if_pos rfl]
        · rw [if_neg (Nat.pos_iff_ne_zero.mp positive)]
      · intro i
        rw [eq i]
        rcases Nat.lt_trichotomy i n with less | rfl | more
        · rw [if_pos less, if_pos (Nat.lt_succ_of_lt less)]
        · rw [if_neg (Nat.lt_irrefl i), Function.update_self, if_pos (Nat.lt_succ_self i)]
        · rw [if_neg (Nat.not_lt.mpr more.le), Function.update_of_ne (Nat.ne_of_gt more),
            if_neg (Nat.not_lt.mpr more)]

end Search

/-! ## Loops over the levels -/

section Loops

variable [DecidableEq ρ] {update : ℕ → Option ρ} {last : ℕ → ρ} {node x : ρ}

/-- The new node goes behind the last one below, on its levels. -/
theorem linkLevels_eq {n : ℕ} (updates : ∀ i < n, update i = some (last i))
    {nodes : Heap ρ (SkipNode ρ V)} (there : ∀ i < n, forwardAt nodes i (last i) ≠ none)
    (new : ∀ i < n, forwardAt nodes i node ≠ none) :
    ∃ nodes', Skiplist.linkLevels node update n nodes = some nodes' ∧
      shapeOf nodes' = shapeOf nodes ∧ ∀ i, forwardAt nodes' i =
        if i < n then Function.update (Function.update (forwardAt nodes i) node
          (forwardAt nodes i (last i))) (last i) (some (some node))
        else forwardAt nodes i := by
  induction n with
  | zero => exact ⟨nodes, rfl, rfl, fun i => (if_neg (Nat.not_lt_zero i)).symm⟩
  | succ n ih =>
      rcases ih (fun i less => updates i (Nat.lt_succ_of_lt less))
        (fun i less => there i (Nat.lt_succ_of_lt less))
        (fun i less => new i (Nat.lt_succ_of_lt less)) with ⟨nodes₁, run, shape₁, links₁⟩
      have same : forwardAt nodes₁ n = forwardAt nodes n := by
        rw [links₁, if_neg (Nat.lt_irrefl n)]
      rcases Option.ne_none_iff_exists'.mp (there n (Nat.lt_succ_self n)) with ⟨next, linked⟩
      have new₁ : forwardAt nodes₁ n node ≠ none := by
        rw [same]
        exact new n (Nat.lt_succ_self n)
      rcases setForward_eq new₁ next with ⟨nodes₂, set₂, shape₂, here₂, others₂⟩
      have there₂ : forwardAt nodes₂ n (last n) ≠ none := by
        rw [here₂, same]
        rcases eq_or_ne (last n) node with eq | differ
        · rw [eq, Function.update_self]
          exact Option.some_ne_none next
        · rw [Function.update_of_ne differ]
          exact there n (Nat.lt_succ_self n)
      rcases setForward_eq there₂ (some node) with
        ⟨nodes₃, set₃, shape₃, here₃, others₃⟩
      refine ⟨nodes₃, ?_, ?_, ?_⟩
      · unfold Skiplist.linkLevels
        rw [run, Option.bind_some, updates n (Nat.lt_succ_self n), Option.bind_some, same, linked,
          Option.bind_some, set₂, Option.bind_some, set₃]
      · rw [shape₃, shape₂, shape₁]
      · intro i
        rcases Nat.lt_trichotomy i n with less | rfl | more
        · rw [others₃ i less.ne, others₂ i less.ne, links₁, if_pos less,
            if_pos (Nat.lt_succ_of_lt less)]
        · rw [here₃, here₂, same, if_pos (Nat.lt_succ_self i), linked]
        · rw [others₃ i more.ne', others₂ i more.ne', links₁, if_neg (Nat.not_lt.mpr more.le),
            if_neg (Nat.not_lt.mpr more)]

/-- A node is passed over on the levels on which the last one below points to it. -/
theorem unlinkLevels_eq {n : ℕ} (updates : ∀ i < n, update i = some (last i))
    {nodes : Heap ρ (SkipNode ρ V)} (there : ∀ i < n, forwardAt nodes i (last i) ≠ none)
    (old : ∀ i < n, forwardAt nodes i (last i) = some (some x) → forwardAt nodes i x ≠ none) :
    ∃ nodes', Skiplist.unlinkLevels x update n nodes = some nodes' ∧
      shapeOf nodes' = shapeOf nodes ∧ ∀ i, forwardAt nodes' i =
        if i < n ∧ forwardAt nodes i (last i) = some (some x) then
          Function.update (forwardAt nodes i) (last i) (forwardAt nodes i x)
        else forwardAt nodes i := by
  induction n with
  | zero => exact ⟨nodes, rfl, rfl, fun i => (if_neg fun both => Nat.not_lt_zero i both.1).symm⟩
  | succ n ih =>
      rcases ih (fun i less => updates i (Nat.lt_succ_of_lt less))
        (fun i less => there i (Nat.lt_succ_of_lt less))
        (fun i less => old i (Nat.lt_succ_of_lt less)) with ⟨nodes₁, run, shape₁, links₁⟩
      have same : forwardAt nodes₁ n = forwardAt nodes n := by
        rw [links₁, if_neg fun both => Nat.lt_irrefl n both.1]
      have step : Skiplist.unlinkLevels x update (n + 1) nodes =
          (forwardAt nodes n (last n)).bind fun next =>
            if next = some x then
              (forwardAt nodes n x).bind fun next => setForward nodes₁ n (last n) next
            else some nodes₁ := by
        rw [← same]
        unfold Skiplist.unlinkLevels
        rw [run, Option.bind_some, updates n (Nat.lt_succ_self n), Option.bind_some]
      rcases Option.ne_none_iff_exists'.mp (there n (Nat.lt_succ_self n)) with ⟨next, linked⟩
      rw [step, linked, Option.bind_some]
      by_cases points : next = some x
      · subst points
        rcases Option.ne_none_iff_exists'.mp (old n (Nat.lt_succ_self n) linked) with ⟨after, eq⟩
        have there₁ : forwardAt nodes₁ n (last n) ≠ none := by
          rw [same]
          exact there n (Nat.lt_succ_self n)
        rcases setForward_eq there₁ after with ⟨nodes₂, set₂, shape₂, here₂, others₂⟩
        rw [if_pos rfl, eq, Option.bind_some, set₂]
        refine ⟨nodes₂, rfl, shape₂.trans shape₁, ?_⟩
        intro i
        rcases Nat.lt_trichotomy i n with less | rfl | more
        · rw [others₂ i less.ne, links₁]
          simp only [less, Nat.lt_succ_of_lt less]
        · rw [here₂, same, if_pos ⟨Nat.lt_succ_self i, linked⟩, eq]
        · rw [others₂ i more.ne', links₁, if_neg fun both => absurd both.1 (Nat.not_lt.mpr more.le),
            if_neg fun both => absurd both.1 (Nat.not_lt.mpr more)]
      · rw [if_neg points]
        refine ⟨nodes₁, rfl, shape₁, ?_⟩
        intro i
        rcases Nat.lt_trichotomy i n with less | rfl | more
        · rw [links₁]
          simp only [less, Nat.lt_succ_of_lt less]
        · rw [same, if_neg]
          rintro ⟨_, other⟩
          rw [linked] at other
          exact points (Option.some.inj other)
        · rw [links₁, if_neg fun both => absurd both.1 (Nat.not_lt.mpr more.le),
            if_neg fun both => absurd both.1 (Nat.not_lt.mpr more)]

end Loops

end ViabtcServer.Container
