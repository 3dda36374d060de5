import ViabtcServer.Memory.Buckets
import Mathlib.Data.List.Flatten

/-!
# Moving a table

All nodes of a table are put in front of the buckets of another one. Which nodes
there are and what is in them stays, and so the new table holds the same.
-/

namespace ViabtcServer.Memory

universe u v w

section Rehash

variable {ρ : Type u} {N : Type v} {β : Type w} [DecidableEq ρ] {L : Linked ρ N β}
  {table new : Heap ℕ (Option ρ)} {nodes : Heap ρ N} {size size' i : ℕ} {home home' : β → ℕ}
  {xs done : List (ρ × β)} {x : ρ × β} {a : ρ} {start : Option ρ}

/-- One chain. -/
theorem moveChain_eq {rest : List (ρ × β)}
    (chain : Chain (fieldOf L.next nodes) start (rest.map Prod.fst) none)
    (cells : ∀ x ∈ rest, fieldOf L.data nodes x.1 = some x.2)
    (chains : Chains L new nodes size' home' done)
    (apart : ∀ x ∈ rest, x.1 ∉ done.map Prod.fst) (homes : ∀ x ∈ rest, home' x.2 < size')
    {fuel : ℕ} (enough : rest.length ≤ fuel) :
    ∃ new' nodes', moveChain L home' fuel start new nodes = some (new', nodes', rest.length) ∧
      Chains L new' nodes' size' home' (rest.reverse ++ done) ∧
      fieldOf L.data nodes' = fieldOf L.data nodes ∧
      ∀ b, b ∉ rest.map Prod.fst → nodes' b = nodes b := by
  induction rest generalizing start new nodes done fuel with
  | nil =>
      cases chain
      unfold moveChain
      exact ⟨new, nodes, rfl, chains, rfl, fun _ _ => rfl⟩
  | cons x rest ih =>
      cases fuel with
      | zero => exact absurd enough (Nat.not_succ_le_zero _)
      | succ fuel =>
          have nodup := List.nodup_cons.mp chain.nodup
          rcases chain with ⟨rfl, next, linked, tail⟩
          rcases exists_cell linked with ⟨cell, found, rfl⟩
          have data := cells x List.mem_cons_self
          rw [fieldOf_of_eq found] at data
          have content := Option.some.inj data
          rcases chains (home' x.2) (homes x List.mem_cons_self) with ⟨first, pointer, _⟩
          -- the node keeps its content
          have same : fieldOf L.data (Function.update nodes x.1 (some (L.setNext first cell))) =
              fieldOf L.data nodes := by
            have old : some (L.data cell) = fieldOf L.data nodes x.1 := (fieldOf_of_eq found).symm
            rw [fieldOf_update, Option.map_some, L.data_setNext, old, Function.update_eq_self]
          have tail' : Chain
              (fieldOf L.next (Function.update nodes x.1 (some (L.setNext first cell))))
              (L.next cell) (rest.map Prod.fst) none := by
            rw [fieldOf_update]
            exact tail.update_of_notMem nodup.1
          have cells' : ∀ y ∈ rest, fieldOf L.data
              (Function.update nodes x.1 (some (L.setNext first cell))) y.1 = some y.2 := by
            intro y mem
            rw [same]
            exact cells y (List.mem_cons_of_mem x mem)
          have chains' := chains.push (apart x List.mem_cons_self) pointer
            (L.next_setNext first cell)
          have apart' : ∀ y ∈ rest, y.1 ∉ (x :: done).map Prod.fst := by
            intro y mem
            rw [List.map_cons, List.mem_cons, not_or]
            constructor
            · intro same
              exact nodup.1 (List.mem_map.mpr ⟨y, mem, same⟩)
            · exact apart y (List.mem_cons_of_mem x mem)
          rcases ih tail' cells' chains' apart'
            (fun y mem => homes y (List.mem_cons_of_mem x mem)) (Nat.le_of_succ_le_succ enough)
            with ⟨new', nodes', run, moved, data', frame⟩
          refine ⟨new', nodes', ?_, ?_, data'.trans same, ?_⟩
          · unfold moveChain
            rw [found, Option.bind_some, content, pointer, Option.bind_some, run]
            rfl
          · rw [List.reverse_cons, List.append_assoc]
            exact moved
          · intro b other
            rw [List.map_cons, List.mem_cons, not_or] at other
            rw [frame b other.2, Function.update_of_ne other.1]

/-- The nodes of the buckets from `i` on. -/
def fromBucket (home : β → ℕ) (xs : List (ρ × β)) (n i : ℕ) : List (ρ × β) :=
  (List.range' i n).flatMap fun j => xs.filter fun x => home x.2 = j

omit [DecidableEq ρ] in
theorem fromBucket_succ (n i : ℕ) : fromBucket home xs (n + 1) i =
    (xs.filter fun x => home x.2 = i) ++ fromBucket home xs n (i + 1) := by
  unfold fromBucket
  rw [List.range'_succ, List.flatMap_cons]

omit [DecidableEq ρ] in
theorem mem_fromBucket {n : ℕ} :
    x ∈ fromBucket home xs n i ↔ x ∈ xs ∧ i ≤ home x.2 ∧ home x.2 < i + n := by
  unfold fromBucket
  rw [List.mem_flatMap]
  constructor
  · rintro ⟨j, range, mem⟩
    rcases List.mem_filter.mp mem with ⟨inside, here⟩
    have here := of_decide_eq_true here
    subst here
    rw [List.mem_range'_1] at range
    exact ⟨inside, range⟩
  · rintro ⟨inside, range⟩
    exact ⟨home x.2, List.mem_range'_1.mpr range,
      List.mem_filter.mpr ⟨inside, decide_eq_true rfl⟩⟩

omit [DecidableEq ρ] in
/-- All buckets together are the table. -/
theorem fromBucket_perm (nodup : xs.Nodup) (homes : ∀ x ∈ xs, home x.2 < size) :
    (fromBucket home xs size 0).Perm xs := by
  apply (List.perm_ext_iff_of_nodup _ nodup).mpr
  · intro x
    rw [mem_fromBucket]
    constructor
    · exact fun both => both.1
    · intro mem
      exact ⟨mem, Nat.zero_le _, by rw [Nat.zero_add]; exact homes x mem⟩
  · unfold fromBucket
    apply List.nodup_flatMap.mpr
    constructor
    · exact fun j _ => nodup.filter _
    · apply List.Pairwise.imp _ List.nodup_range'
      intro j k differ x inJ inK
      have here := of_decide_eq_true (List.mem_filter.mp inJ).2
      exact differ (here.symm.trans (of_decide_eq_true (List.mem_filter.mp inK).2))

/-- All chains from bucket `i` on. -/
theorem moveBuckets_eq {nodes₀ : Heap ρ N} (buckets : Buckets L table nodes₀ size home xs)
    (homes : ∀ x ∈ xs, home' x.2 < size') {stop : ℕ → Bool} (stops : ∀ n, stop n = true → n = 0)
    {fuel n : ℕ} (enough : xs.length ≤ fuel) (all : i + n = size)
    (chains : Chains L new nodes size' home' done)
    (moved : ∀ x ∈ done, x ∈ xs ∧ home x.2 < i)
    (data : fieldOf L.data nodes = fieldOf L.data nodes₀)
    (frame : ∀ b, b ∉ done.map Prod.fst → nodes b = nodes₀ b) :
    ∃ new' nodes', moveBuckets L home' table stop fuel n i (fromBucket home xs n i).length new
        nodes = some (new', nodes') ∧
      Chains L new' nodes' size' home' ((fromBucket home xs n i).reverse ++ done) ∧
      fieldOf L.data nodes' = fieldOf L.data nodes₀ := by
  induction n generalizing i new nodes done with
  | zero => exact ⟨new, nodes, rfl, chains, data⟩
  | succ n ih =>
      rw [fromBucket_succ]
      unfold moveBuckets
      by_cases early : stop ((xs.filter fun x => home x.2 = i) ++
          fromBucket home xs n (i + 1)).length = true
      · -- nothing is left
        have nothing := List.eq_nil_of_length_eq_zero (stops _ early)
        rw [if_pos early, nothing]
        exact ⟨new, nodes, rfl, chains, data⟩
      · have bound : i < size := by omega
        rcases buckets.chains i bound with ⟨start, pointer, chain₀⟩
        -- the nodes of this bucket were not moved
        have still : ∀ x ∈ xs, i ≤ home x.2 → x.1 ∉ done.map Prod.fst := by
          intro x mem late among
          rcases List.mem_map.mp among with ⟨y, before, same⟩
          rcases moved y before with ⟨inside, less⟩
          have found := buckets.cells x mem
          rw [← same, buckets.cells y inside] at found
          rw [Option.some.inj found] at less
          exact absurd late (Nat.not_le.mpr less)
        have chain : Chain (fieldOf L.next nodes) start (bucket home i xs) none := by
          apply chain₀.congr
          intro b mem
          rcases mem_bucket.mp mem with ⟨x, inside, here, rfl⟩
          exact congrArg (fun cell => cell.map L.next)
            (frame x.1 (still x inside (Nat.le_of_eq here.symm)))
        have cells : ∀ x ∈ xs.filter (fun x => home x.2 = i),
            fieldOf L.data nodes x.1 = some x.2 := by
          intro x mem
          rw [data]
          exact buckets.cells x (List.mem_of_mem_filter mem)
        have apart : ∀ x ∈ xs.filter (fun x => home x.2 = i), x.1 ∉ done.map Prod.fst := by
          intro x mem
          rcases List.mem_filter.mp mem with ⟨inside, here⟩
          exact still x inside (Nat.le_of_eq (of_decide_eq_true here).symm)
        rcases moveChain_eq chain cells chains apart
          (fun x mem => homes x (List.mem_of_mem_filter mem))
          ((List.length_filter_le _ _).trans enough) with
          ⟨new₁, nodes₁, run, chains₁, data₁, frame₁⟩
        have moved₁ : ∀ x ∈ (xs.filter fun x => home x.2 = i).reverse ++ done,
            x ∈ xs ∧ home x.2 < i + 1 := by
          intro x mem
          rcases List.mem_append.mp mem with now | before
          · rcases List.mem_filter.mp (List.mem_reverse.mp now) with ⟨inside, here⟩
            exact ⟨inside, Nat.lt_succ_of_le (Nat.le_of_eq (of_decide_eq_true here))⟩
          · exact ⟨(moved x before).1, Nat.lt_succ_of_lt (moved x before).2⟩
        have frame₂ : ∀ b, b ∉ ((xs.filter fun x => home x.2 = i).reverse ++ done).map Prod.fst →
            nodes₁ b = nodes₀ b := by
          intro b other
          rw [List.map_append, List.mem_append, not_or, List.map_reverse, List.mem_reverse] at other
          rw [frame₁ b other.1, frame b other.2]
        have later : i + 1 + n = size := by omega
        rcases ih later chains₁ moved₁ (data₁.trans data) frame₂ with
          ⟨new', nodes', runs, chains', data'⟩
        have left : ((xs.filter fun x => home x.2 = i) ++ fromBucket home xs n (i + 1)).length -
            (xs.filter fun x => home x.2 = i).length = (fromBucket home xs n (i + 1)).length := by
          rw [List.length_append, Nat.add_sub_cancel_left]
        refine ⟨new', nodes', ?_, ?_, data'⟩
        · rw [if_neg early, pointer, Option.bind_some, run, Option.bind_some]
          simp only
          rw [left]
          exact runs
        · rw [List.reverse_append, List.append_assoc]
          exact chains'

/-- A table moved to a new one holds the same nodes. -/
theorem Buckets.rehash (buckets : Buckets L table nodes size home xs)
    (homes : ∀ x ∈ xs, home' x.2 < size') {stop : ℕ → Bool} (stops : ∀ n, stop n = true → n = 0)
    {fuel : ℕ} (enough : xs.length ≤ fuel) :
    ∃ new nodes' xs', moveBuckets L home' table stop fuel size 0 xs.length (calloc size') nodes =
        some (new, nodes') ∧
      xs'.Perm xs ∧ Buckets L new nodes' size' home' xs' := by
  have perm : (fromBucket home xs size 0).Perm xs :=
    fromBucket_perm (List.Nodup.of_map _ buckets.nodup) buckets.homes
  have start : Chains L (calloc size') nodes size' home' [] := chains_calloc size'
  rcases moveBuckets_eq buckets homes stops enough (Nat.zero_add size) start
    (fun x mem => absurd mem List.not_mem_nil) rfl (fun _ _ => rfl) with
    ⟨new, nodes', run, chains, data⟩
  rw [List.append_nil] at chains
  rw [perm.length_eq] at run
  have all : (fromBucket home xs size 0).reverse.Perm xs := (List.reverse_perm _).trans perm
  refine ⟨new, nodes', _, run, all, chains, ?_, ?_, ?_, ?_⟩
  · intro x mem
    rw [data]
    exact buckets.cells x (all.mem_iff.mp mem)
  · exact (all.map Prod.fst).nodup_iff.mpr buckets.nodup
  · intro b used
    rw [← fieldOf_ne_none L.data, data, fieldOf_ne_none] at used
    exact (all.map Prod.fst).mem_iff.mpr (buckets.live b used)
  · exact fun x mem => homes x (all.mem_iff.mp mem)

end Rehash

end ViabtcServer.Memory
