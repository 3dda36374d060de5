import ViabtcServer.Memory.Chain
import Mathlib.Data.List.Range
import Mathlib.Data.List.Perm.Basic
import Mathlib.Data.List.Nodup
import Mathlib.Algebra.Group.Nat.Defs

/-!
# Tables of chains

A table of pointers, each to a chain of the nodes that belong in its bucket. Where a
node belongs is decided by the content of its cell besides the link. Nodes are
put in front of their buckets, so the nodes of the table are one list, newest
first, and a bucket is a part of it.
-/

namespace ViabtcServer.Memory

universe u v w

/-- Cells with a link, and what else is in them. -/
structure Linked (ρ : Type u) (N : Type v) (β : Type w) where
  next : N → Option ρ
  setNext : Option ρ → N → N
  data : N → β
  next_setNext : ∀ pointer cell, next (setNext pointer cell) = pointer
  data_setNext : ∀ pointer cell, data (setNext pointer cell) = data cell

/-- A table of `size` pointers, all `NULL`. -/
def calloc {ρ : Type u} (size : ℕ) : Heap ℕ (Option ρ) :=
  fun i => if i < size then some none else none

section Tables

variable {ρ : Type u} {N : Type v} {β : Type w} [DecidableEq ρ] (L : Linked ρ N β)

/-! ## Code on tables of chains -/

omit [DecidableEq ρ] in
/-- Follow the links until a content passes: the node, and the one before it. -/
def seek (nodes : Heap ρ N) (test : β → Bool) :
    ℕ → Option ρ → Option ρ → Option (Option (Option ρ × ρ))
  | _, _, none => some none
  | 0, _, some _ => none
  | fuel + 1, prev, some a => (nodes a).bind fun cell =>
      if test (L.data cell) then some (some (prev, a))
      else seek nodes test fuel (some a) (L.next cell)

/-- Let the node before, or else the bucket, point to `next`. -/
def bypass (table : Heap ℕ (Option ρ)) (nodes : Heap ρ N) (index : ℕ) (prev next : Option ρ) :
    Option (Heap ℕ (Option ρ) × Heap ρ N) :=
  match prev with
  | some _ => (nodes.assign prev (L.setNext next)).map fun nodes => (table, nodes)
  | none => (table index).map fun _ => (Function.update table index (some next), nodes)

/-- Put the nodes of a chain in front of their buckets, one after the other, and count them. -/
def moveChain (index : β → ℕ) : ℕ → Option ρ → Heap ℕ (Option ρ) → Heap ρ N →
    Option (Heap ℕ (Option ρ) × Heap ρ N × ℕ)
  | _, none, new, nodes => some (new, nodes, 0)
  | 0, some _, _, _ => none
  | fuel + 1, some a, new, nodes => (nodes a).bind fun cell =>
      (new (index (L.data cell))).bind fun first =>
        (moveChain index fuel (L.next cell)
          (Function.update new (index (L.data cell)) (some (some a)))
          (Function.update nodes a (some (L.setNext first cell)))).map
            fun (new, nodes, moved) => (new, nodes, moved + 1)

/-- Move the chains of a table, from bucket `i` on, to another table; `left` counts the nodes not
moved yet, and the loop may stop early. -/
def moveBuckets (index : β → ℕ) (old : Heap ℕ (Option ρ)) (stop : ℕ → Bool) (fuel : ℕ) :
    ℕ → ℕ → ℕ → Heap ℕ (Option ρ) → Heap ρ N → Option (Heap ℕ (Option ρ) × Heap ρ N)
  | 0, _, _, new, nodes => some (new, nodes)
  | n + 1, i, left, new, nodes =>
      if stop left then some (new, nodes)
      else (old i).bind fun start => (moveChain L index fuel start new nodes).bind
          fun (new, nodes, moved) =>
            moveBuckets index old stop fuel n (i + 1) (left - moved) new nodes

/-! ## What a table holds -/

section Bucket

variable (home : β → ℕ)

omit [DecidableEq ρ] in
/-- The nodes of bucket `i`. -/
def bucket (i : ℕ) (xs : List (ρ × β)) : List ρ :=
  (xs.filter fun x => home x.2 = i).map Prod.fst

variable {home} {i : ℕ} {xs ys : List (ρ × β)} {x : ρ × β} {a : ρ}

omit [DecidableEq ρ] in
theorem bucket_append (i : ℕ) (xs ys : List (ρ × β)) :
    bucket home i (xs ++ ys) = bucket home i xs ++ bucket home i ys := by
  unfold bucket
  rw [List.filter_append, List.map_append]

omit [DecidableEq ρ] in
theorem bucket_cons_self (here : home x.2 = i) :
    bucket home i (x :: xs) = x.1 :: bucket home i xs := by
  unfold bucket
  have passes : decide (home x.2 = i) = true := decide_eq_true here
  rw [List.filter_cons, if_pos passes, List.map_cons]

omit [DecidableEq ρ] in
theorem bucket_cons_ne (other : home x.2 ≠ i) : bucket home i (x :: xs) = bucket home i xs := by
  unfold bucket
  have fails : ¬ decide (home x.2 = i) = true := by
    rw [decide_eq_true_iff]
    exact other
  rw [List.filter_cons, if_neg fails]

omit [DecidableEq ρ] in
theorem mem_bucket : a ∈ bucket home i xs ↔ ∃ x ∈ xs, home x.2 = i ∧ x.1 = a := by
  unfold bucket
  rw [List.mem_map]
  constructor
  · rintro ⟨x, mem, same⟩
    rw [List.mem_filter, decide_eq_true_iff] at mem
    exact ⟨x, mem.1, mem.2, same⟩
  · rintro ⟨x, mem, here, same⟩
    exact ⟨x, List.mem_filter.mpr ⟨mem, decide_eq_true here⟩, same⟩

omit [DecidableEq ρ] in
theorem mem_nodes_of_mem_bucket (mem : a ∈ bucket home i xs) : a ∈ xs.map Prod.fst := by
  rcases mem_bucket.mp mem with ⟨x, inside, _, same⟩
  exact List.mem_map.mpr ⟨x, inside, same⟩

end Bucket

/-- The chains of a table are its buckets. -/
def Chains (table : Heap ℕ (Option ρ)) (nodes : Heap ρ N) (size : ℕ) (home : β → ℕ)
    (xs : List (ρ × β)) : Prop :=
  ∀ i < size, ∃ start, table i = some start ∧
    Chain (fieldOf L.next nodes) start (bucket home i xs) none

/-- The table holds these nodes with these contents, and nothing else is allocated. -/
structure Buckets (table : Heap ℕ (Option ρ)) (nodes : Heap ρ N) (size : ℕ) (home : β → ℕ)
    (xs : List (ρ × β)) : Prop where
  chains : Chains L table nodes size home xs
  cells : ∀ x ∈ xs, fieldOf L.data nodes x.1 = some x.2
  nodup : (xs.map Prod.fst).Nodup
  live : ∀ a, nodes a ≠ none → a ∈ xs.map Prod.fst
  homes : ∀ x ∈ xs, home x.2 < size

variable {L} {table new : Heap ℕ (Option ρ)} {nodes : Heap ρ N} {size i : ℕ} {home : β → ℕ}
  {xs l r : List (ρ × β)} {x : ρ × β} {a : ρ} {start : Option ρ}

omit [DecidableEq ρ] in
theorem chains_calloc (size : ℕ) : Chains L (calloc size) nodes size home [] :=
  fun _ bound => ⟨none, if_pos bound, rfl⟩

omit [DecidableEq ρ] in
theorem fieldOf_ne_none {γ : Type w} (field : N → γ) :
    fieldOf field nodes a ≠ none ↔ nodes a ≠ none :=
  not_congr Option.map_eq_none_iff

omit [DecidableEq ρ] in
theorem Buckets.empty (size : ℕ) : Buckets L (calloc size) Heap.empty size home [] where
  chains := chains_calloc size
  cells := fun _ mem => absurd mem List.not_mem_nil
  nodup := List.nodup_nil
  live := fun _ used => absurd rfl used
  homes := fun _ mem => absurd mem List.not_mem_nil

/-! ## One more node -/

/-- A node in front of its bucket. -/
theorem Chains.push (chains : Chains L table nodes size home xs) (other : x.1 ∉ xs.map Prod.fst)
    {first : Option ρ} (here : table (home x.2) = some first) {cell : N}
    (linked : L.next cell = first) :
    Chains L (Function.update table (home x.2) (some (some x.1)))
      (Function.update nodes x.1 (some cell)) size home (x :: xs) := by
  intro i bound
  rcases chains i bound with ⟨start, pointer, chain⟩
  have apart : x.1 ∉ bucket home i xs := fun mem => other (mem_nodes_of_mem_bucket mem)
  have kept : Chain (fieldOf L.next (Function.update nodes x.1 (some cell))) start
      (bucket home i xs) none := by
    rw [fieldOf_update]
    exact chain.update_of_notMem apart
  by_cases same : home x.2 = i
  · subst same
    rw [pointer] at here
    cases here
    rw [bucket_cons_self rfl]
    refine ⟨some x.1, Function.update_self _ _ _, rfl, first, ?_, kept⟩
    rw [fieldOf_update, Function.update_self, Option.map_some, linked]
  · rw [bucket_cons_ne same]
    exact ⟨start, by rw [Function.update_of_ne (Ne.symm same), pointer], kept⟩

theorem Buckets.push (buckets : Buckets L table nodes size home xs) (fresh : nodes x.1 = none)
    {first : Option ρ} (here : table (home x.2) = some first) {cell : N}
    (linked : L.next cell = first) (content : L.data cell = x.2) (inside : home x.2 < size) :
    Buckets L (Function.update table (home x.2) (some (some x.1))) (nodes.alloc x.1 cell) size home
      (x :: xs) := by
  have other : x.1 ∉ xs.map Prod.fst := by
    intro mem
    rcases List.mem_map.mp mem with ⟨y, among, same⟩
    have found := buckets.cells y among
    rw [same] at found
    exact (fieldOf_ne_none L.data).mp (by rw [found]; exact Option.some_ne_none _) fresh
  constructor
  · exact buckets.chains.push other here linked
  · rintro y (_ | ⟨_, mem⟩)
    · rw [fieldOf_alloc, Function.update_self, content]
    · rw [fieldOf_alloc, Function.update_of_ne, buckets.cells y mem]
      intro same
      exact other (List.mem_map.mpr ⟨y, mem, same⟩)
  · exact List.nodup_cons.mpr ⟨other, buckets.nodup⟩
  · intro b used
    rcases eq_or_ne b x.1 with rfl | differ
    · exact List.mem_cons_self
    · unfold Heap.alloc at used
      rw [Function.update_of_ne differ] at used
      exact List.mem_cons_of_mem _ (buckets.live b used)
  · rintro y (_ | ⟨_, mem⟩)
    · exact inside
    · exact buckets.homes y mem

/-! ## Searches -/

omit [DecidableEq ρ] in
/-- A walk comes to the first node that passes. -/
theorem seek_eq {test : β → Bool} {prev : Option ρ} {front : List (ρ × β)} {rest : List ρ}
    (chain : Chain (fieldOf L.next nodes) start (front.map Prod.fst ++ x.1 :: rest) none)
    (cells : ∀ y ∈ front, fieldOf L.data nodes y.1 = some y.2)
    (cell : fieldOf L.data nodes x.1 = some x.2)
    (fails : ∀ y ∈ front, test y.2 = false) (passes : test x.2 = true) {fuel : ℕ}
    (enough : front.length < fuel) :
    seek L nodes test fuel prev start =
      some (some (((front.map Prod.fst).getLast?).or prev, x.1)) := by
  induction front generalizing prev start fuel with
  | nil =>
      cases fuel with
      | zero => exact absurd enough (Nat.not_lt_zero _)
      | succ fuel =>
          cases chain.1
          rcases exists_cell cell with ⟨content, found, eq⟩
          unfold seek
          rw [found, Option.bind_some, eq, passes, if_pos rfl]
          rfl
  | cons y front ih =>
      cases fuel with
      | zero => exact absurd enough (Nat.not_lt_zero _)
      | succ fuel =>
          rcases chain with ⟨rfl, next, linked, rest⟩
          rcases exists_cell linked with ⟨content, found, rfl⟩
          have data := cells y List.mem_cons_self
          rw [fieldOf_of_eq found] at data
          unfold seek
          rw [found, Option.bind_some, Option.some.inj data, fails y List.mem_cons_self,
            if_neg Bool.false_ne_true, ih rest (fun z mem => cells z (List.mem_cons_of_mem y mem))
              (fun z mem => fails z (List.mem_cons_of_mem y mem)) (Nat.lt_of_succ_lt_succ enough),
            List.map_cons, List.getLast?_cons]
          cases (front.map Prod.fst).getLast? <;> rfl

omit [DecidableEq ρ] in
/-- A walk on which no node passes comes to the end. -/
theorem seek_eq_none {test : β → Bool} {prev : Option ρ} {front : List (ρ × β)}
    (chain : Chain (fieldOf L.next nodes) start (front.map Prod.fst) none)
    (cells : ∀ y ∈ front, fieldOf L.data nodes y.1 = some y.2)
    (fails : ∀ y ∈ front, test y.2 = false) {fuel : ℕ} (enough : front.length ≤ fuel) :
    seek L nodes test fuel prev start = some none := by
  induction front generalizing prev start fuel with
  | nil =>
      cases chain
      unfold seek
      rfl
  | cons y front ih =>
      cases fuel with
      | zero => exact absurd enough (Nat.not_succ_le_zero _)
      | succ fuel =>
          rcases chain with ⟨rfl, next, linked, rest⟩
          rcases exists_cell linked with ⟨content, found, rfl⟩
          have data := cells y List.mem_cons_self
          rw [fieldOf_of_eq found] at data
          unfold seek
          rw [found, Option.bind_some, Option.some.inj data, fails y List.mem_cons_self,
            if_neg Bool.false_ne_true]
          exact ih rest (fun z mem => cells z (List.mem_cons_of_mem y mem))
            (fun z mem => fails z (List.mem_cons_of_mem y mem)) (Nat.le_of_succ_le_succ enough)

omit [DecidableEq ρ] in
/-- A node of the table and the rest of its bucket. -/
theorem bucket_middle (l r : List (ρ × β)) (x : ρ × β) :
    bucket home (home x.2) (l ++ x :: r) =
      bucket home (home x.2) l ++ x.1 :: bucket home (home x.2) r := by
  rw [bucket_append, bucket_cons_self rfl]

omit [DecidableEq ρ] in
theorem filter_length_lt (l r : List (ρ × β)) (x : ρ × β) (keep : ρ × β → Bool) :
    (l.filter keep).length < (l ++ x :: r).length := by
  have few := List.length_filter_le keep l
  rw [List.length_append, List.length_cons]
  omega

omit [DecidableEq ρ] in
/-- A search in a bucket finds the first node that passes. -/
theorem Buckets.seek_found (buckets : Buckets L table nodes size home (l ++ x :: r))
    {test : β → Bool} (fails : ∀ y ∈ l, home y.2 = home x.2 → test y.2 = false)
    (passes : test x.2 = true) {fuel : ℕ} (enough : (l ++ x :: r).length ≤ fuel) :
    ∃ start, table (home x.2) = some start ∧ seek L nodes test fuel none start =
      some (some ((bucket home (home x.2) l).getLast?, x.1)) := by
  have member : x ∈ l ++ x :: r := List.mem_append_right l List.mem_cons_self
  rcases buckets.chains (home x.2) (buckets.homes x member) with ⟨start, pointer, chain⟩
  rw [bucket_middle] at chain
  have walk : seek L nodes test fuel none start =
      some (some ((bucket home (home x.2) l).getLast?.or none, x.1)) := by
    apply seek_eq chain _ (buckets.cells x member) _ passes
      ((filter_length_lt l r x _).trans_le enough)
    · exact fun y mem => buckets.cells y (List.mem_append_left _ (List.mem_of_mem_filter mem))
    · intro y mem
      rcases List.mem_filter.mp mem with ⟨inside, here⟩
      exact fails y inside (of_decide_eq_true here)
  rw [Option.or_none] at walk
  exact ⟨start, pointer, walk⟩

omit [DecidableEq ρ] in
/-- A search in a bucket where no node passes. -/
theorem Buckets.seek_none (buckets : Buckets L table nodes size home xs) {test : β → Bool}
    (inside : i < size) (fails : ∀ y ∈ xs, home y.2 = i → test y.2 = false) {fuel : ℕ}
    (enough : xs.length ≤ fuel) :
    ∃ start, table i = some start ∧ seek L nodes test fuel none start = some none := by
  rcases buckets.chains i inside with ⟨start, pointer, chain⟩
  refine ⟨start, pointer, seek_eq_none chain ?_ ?_ ((List.length_filter_le _ _).trans enough)⟩
  · exact fun y mem => buckets.cells y (List.mem_of_mem_filter mem)
  · intro y mem
    rcases List.mem_filter.mp mem with ⟨among, here⟩
    exact fails y among (of_decide_eq_true here)

/-! ## One node less -/

omit [DecidableEq ρ] in
/-- The next node in a bucket. -/
theorem Buckets.next_eq (buckets : Buckets L table nodes size home (l ++ x :: r)) :
    fieldOf L.next nodes x.1 = some (bucket home (home x.2) r).head? := by
  have member : x ∈ l ++ x :: r := List.mem_append_right l List.mem_cons_self
  rcases buckets.chains (home x.2) (buckets.homes x member) with ⟨start, pointer, chain⟩
  rw [bucket_middle] at chain
  rw [chain.link_eq, Option.or_none]

omit [DecidableEq ρ] in
theorem Buckets.alive (buckets : Buckets L table nodes size home xs) (mem : a ∈ xs.map Prod.fst) :
    nodes a ≠ none := by
  rcases List.mem_map.mp mem with ⟨x, inside, rfl⟩
  apply (fieldOf_ne_none L.data).mp
  rw [buckets.cells x inside]
  exact Option.some_ne_none _

omit [DecidableEq ρ] in
/-- A node is in one bucket. -/
theorem Buckets.bucket_unique (buckets : Buckets L table nodes size home xs) {j : ℕ}
    (mem : a ∈ bucket home i xs) (mem' : a ∈ bucket home j xs) : i = j := by
  rcases mem_bucket.mp mem with ⟨x, inside, rfl, same⟩
  rcases mem_bucket.mp mem' with ⟨y, inside', rfl, same'⟩
  have found := buckets.cells x inside
  have found' := buckets.cells y inside'
  rw [same] at found
  rw [same', found] at found'
  rw [Option.some.inj found']

omit [DecidableEq ρ] in
theorem notMem_of_nodup (nodup : ((l ++ x :: r).map Prod.fst).Nodup) :
    x.1 ∉ (l ++ r).map Prod.fst := by
  rw [List.map_append, List.map_cons] at nodup
  exact fun mem => (List.nodup_cons.mp (List.nodup_middle.mp nodup)).1 (by
    rw [← List.map_append]
    exact mem)

/-- What `bypass` does: the table and the links without the node. -/
theorem Buckets.bypass_links (buckets : Buckets L table nodes size home (l ++ x :: r)) :
    ∃ table' nodes', bypass L table nodes (home x.2) (bucket home (home x.2) l).getLast?
        (bucket home (home x.2) r).head? = some (table', nodes') ∧
      table' (home x.2) =
        some (bucket home (home x.2) l ++ bucket home (home x.2) r).head? ∧
      (∀ j, j ≠ home x.2 → table' j = table j) ∧
      fieldOf L.next nodes' = relink (fieldOf L.next nodes) (bucket home (home x.2) l)
        (bucket home (home x.2) r).head? ∧
      fieldOf L.data nodes' = fieldOf L.data nodes := by
  have member : x ∈ l ++ x :: r := List.mem_append_right l List.mem_cons_self
  rcases buckets.chains (home x.2) (buckets.homes x member) with ⟨start, pointer, chain⟩
  rw [bucket_middle] at chain
  rcases List.eq_nil_or_concat (bucket home (home x.2) l) with first | ⟨front, last, split⟩
  · rw [first]
    refine ⟨Function.update table (home x.2) (some (bucket home (home x.2) r).head?), nodes, ?_,
      Function.update_self _ _ _, fun j other => Function.update_of_ne other _ _, rfl, rfl⟩
    unfold bypass
    simp only [List.getLast?_nil]
    rw [pointer]
    rfl
  · rw [List.concat_eq_append] at split
    have among : last ∈ bucket home (home x.2) l := by
      rw [split]
      exact List.mem_append_right _ List.mem_cons_self
    have alive : nodes last ≠ none := by
      apply buckets.alive
      rw [List.map_append]
      exact List.mem_append_left _ (mem_nodes_of_mem_bucket among)
    have head : start = (bucket home (home x.2) l ++ bucket home (home x.2) r).head? := by
      rw [chain.start_eq, split, Option.or_none]
      cases front <;> rfl
    refine ⟨table, nodes.amend (some last) (L.setNext (bucket home (home x.2) r).head?), ?_, ?_,
      fun _ _ => rfl, ?_, ?_⟩
    · unfold bypass
      rw [split, List.getLast?_concat]
      simp only
      rw [assign_eq alive]
      rfl
    · rw [pointer, head]
    · rw [split, relink_concat]
      exact fieldOf_amend_set (L.next_setNext _) alive
    · exact fieldOf_amend_same (L.data_setNext _)

/-- A node taken out of its bucket and freed. -/
theorem Buckets.bypass_eq (buckets : Buckets L table nodes size home (l ++ x :: r)) :
    ∃ table' nodes', bypass L table nodes (home x.2) (bucket home (home x.2) l).getLast?
        (bucket home (home x.2) r).head? = some (table', nodes') ∧ nodes' x.1 ≠ none ∧
      Buckets L table' (Function.update nodes' x.1 none) size home (l ++ r) := by
  rcases buckets.bypass_links with ⟨table', nodes', run, here, others, links, data⟩
  have member : x ∈ l ++ x :: r := List.mem_append_right l List.mem_cons_self
  have other := notMem_of_nodup buckets.nodup
  have keep {y : ρ × β} (mem : y ∈ l ++ r) : y ∈ l ++ x :: r := by
    rcases List.mem_append.mp mem with inL | inR
    · exact List.mem_append_left _ inL
    · exact List.mem_append_right l (List.mem_cons_of_mem x inR)
  have sub {j : ℕ} {b : ρ} (mem : b ∈ bucket home j (l ++ r)) :
      b ∈ bucket home j (l ++ x :: r) := by
    rcases mem_bucket.mp mem with ⟨y, among, home, same⟩
    exact mem_bucket.mpr ⟨y, keep among, home, same⟩
  have alive (b : ρ) : nodes' b ≠ none ↔ nodes b ≠ none := by
    rw [← fieldOf_ne_none L.data, data, fieldOf_ne_none]
  refine ⟨table', nodes', run, ?_, ?_⟩
  · rw [alive]
    exact buckets.alive (List.mem_map_of_mem member)
  constructor
  · intro j bound
    rcases buckets.chains j bound with ⟨start, pointer, chain⟩
    rw [fieldOf_update, Option.map_none, links]
    by_cases same : j = home x.2
    · subst same
      rw [bucket_middle] at chain
      have nodup := List.nodup_append.mp chain.nodup
      rw [bucket_append]
      refine ⟨_, here, chain.remove ?_ ?_⟩
      · intro b mem
        exact Function.update_of_ne (nodup.2.2 b mem x.1 List.mem_cons_self) _ _
      · intro b mem
        have differ : b ≠ x.1 := by
          rintro rfl
          exact (List.nodup_cons.mp nodup.2.1).1 mem
        rw [Function.update_of_ne differ, relink_of_notMem]
        exact fun first => nodup.2.2 b first b (List.mem_cons_of_mem _ mem) rfl
    · have whole : bucket home j (l ++ x :: r) = bucket home j (l ++ r) := by
        rw [bucket_append, bucket_cons_ne (Ne.symm same), bucket_append]
      rw [whole] at chain
      refine ⟨start, (others j same).trans pointer, chain.congr ?_⟩
      intro b mem
      have differ : b ≠ x.1 := by
        rintro rfl
        exact other (mem_nodes_of_mem_bucket mem)
      rw [Function.update_of_ne differ, relink_of_notMem]
      intro among
      apply same
      apply buckets.bucket_unique (sub mem)
      rw [bucket_append]
      exact List.mem_append_left _ among
  · intro y mem
    have differ : y.1 ≠ x.1 := by
      intro same
      exact other (List.mem_map.mpr ⟨y, mem, same⟩)
    rw [fieldOf_update, Function.update_of_ne differ, data, buckets.cells y (keep mem)]
  · have nodup := buckets.nodup
    rw [List.map_append, List.map_cons] at nodup
    rw [List.map_append]
    exact (List.nodup_cons.mp (List.nodup_middle.mp nodup)).2
  · intro b used
    rcases eq_or_ne b x.1 with rfl | differ
    · exact absurd (Function.update_self _ _ _) used
    · rw [Function.update_of_ne differ, alive] at used
      have inside := buckets.live b used
      rw [List.map_append, List.map_cons, List.mem_append, List.mem_cons] at inside
      rw [List.map_append, List.mem_append]
      rcases inside with inL | same | inR
      · exact Or.inl inL
      · exact absurd same differ
      · exact Or.inr inR
  · exact fun y mem => buckets.homes y (keep mem)

/-- The content of a node changed, but not its bucket. -/
theorem Buckets.amend (buckets : Buckets L table nodes size home (l ++ x :: r)) {change : N → N}
    {y : β} (links : ∀ cell, L.next (change cell) = L.next cell)
    (content : ∀ cell, L.data cell = x.2 → L.data (change cell) = y) (same : home y = home x.2) :
    Buckets L table (nodes.amend (some x.1) change) size home (l ++ (x.1, y) :: r) := by
  have member : x ∈ l ++ x :: r := List.mem_append_right l List.mem_cons_self
  have other := notMem_of_nodup buckets.nodup
  have nodes_eq : (l ++ (x.1, y) :: r).map Prod.fst = (l ++ x :: r).map Prod.fst := by
    rw [List.map_append, List.map_append, List.map_cons, List.map_cons]
  have bucket_eq (i : ℕ) : bucket home i (l ++ (x.1, y) :: r) = bucket home i (l ++ x :: r) := by
    rw [bucket_append, bucket_append]
    by_cases here : home x.2 = i
    · rw [bucket_cons_self here, bucket_cons_self (x := (x.1, y)) (same.trans here)]
    · rw [bucket_cons_ne here,
        bucket_cons_ne (x := (x.1, y)) (fun equal => here (same.symm.trans equal))]
  have cell {z : ρ × β} (mem : z ∈ l ++ r) :
      fieldOf L.data (nodes.amend (some x.1) change) z.1 = some z.2 := by
    have differ : some x.1 ≠ some z.1 := by
      intro equal
      exact other (List.mem_map.mpr ⟨z, mem, (Option.some.inj equal).symm⟩)
    have inside : z ∈ l ++ x :: r := by
      rcases List.mem_append.mp mem with inL | inR
      · exact List.mem_append_left _ inL
      · exact List.mem_append_right l (List.mem_cons_of_mem x inR)
    unfold fieldOf
    rw [amend_of_ne differ]
    exact buckets.cells z inside
  constructor
  · intro i bound
    rw [fieldOf_amend_same links, bucket_eq]
    exact buckets.chains i bound
  · intro z mem
    rcases List.mem_append.mp mem with inL | inRest
    · exact cell (List.mem_append_left r inL)
    · rcases List.mem_cons.mp inRest with rfl | inR
      · rcases exists_cell (buckets.cells x member) with ⟨old, found, eq⟩
        change (Function.update nodes x.1 ((nodes x.1).map change) x.1).map L.data = some y
        rw [Function.update_self, found, Option.map_some, Option.map_some, content old eq]
      · exact cell (List.mem_append_right l inR)
  · rw [nodes_eq]
    exact buckets.nodup
  · intro b used
    rw [Ne, amend_eq_none] at used
    rw [nodes_eq]
    exact buckets.live b used
  · intro z mem
    rcases List.mem_append.mp mem with inL | inRest
    · exact buckets.homes z (List.mem_append_left _ inL)
    · rcases List.mem_cons.mp inRest with rfl | inR
      · rw [same]
        exact buckets.homes x member
      · exact buckets.homes z (List.mem_append_right l (List.mem_cons_of_mem x inR))

end Tables

end ViabtcServer.Memory
