import Mathlib.Data.List.Basic
import Mathlib.Data.List.Perm.Basic

/-!
# Hash tables

The buckets of a `dict_t` without values. The hash of a key is given with each call: it
may be another one than when the key was added, and then the key is looked for in the
wrong bucket.
-/

namespace ViabtcServer.Container

universe u

variable {κ : Type u}

/-- The buckets of a table, of which there is at least one. -/
structure HashTable (κ : Type u) where
  buckets : List (List κ)
  nonempty : buckets ≠ []

namespace HashTable

/-- `dict_create`, for a number of buckets that is a power of two. -/
def create (size : ℕ) (positive : size ≠ 0) : HashTable κ :=
  ⟨List.replicate size [], fun empty => positive (List.replicate_eq_nil_iff _ |>.mp empty)⟩

def size (table : HashTable κ) : ℕ := table.buckets.length

/-- All keys, bucket after bucket. -/
def keys (table : HashTable κ) : List κ := table.buckets.flatten

/-- The bucket for a key, as its hash is now: `hash & mask`. -/
def index (table : HashTable κ) (hash : κ → ℕ) (key : κ) : ℕ := hash key % table.size

def bucket (table : HashTable κ) (hash : κ → ℕ) (key : κ) : List κ :=
  table.buckets.getD (table.index hash key) []

/-- Put a key at the front of a bucket. -/
def push (key : κ) (i : ℕ) (buckets : List (List κ)) : List (List κ) :=
  buckets.modify i (key :: ·)

/-- `dict_expand`: all keys are put in new buckets, by their hashes as they are now. -/
def expand (table : HashTable κ) (hash : κ → ℕ) (size : ℕ) : List (List κ) :=
  table.keys.foldl (fun buckets key => push key (hash key % size) buckets)
    (List.replicate size [])

theorem push_length (key : κ) (i : ℕ) (buckets : List (List κ)) :
    (push key i buckets).length = buckets.length :=
  List.length_modify ..

theorem foldl_push_length (index : κ → ℕ) (keys : List κ) (buckets : List (List κ)) :
    (keys.foldl (fun buckets key => push key (index key) buckets) buckets).length =
      buckets.length := by
  induction keys generalizing buckets with
  | nil => rfl
  | cons key keys ih => rw [List.foldl_cons, ih, push_length]

theorem size_pos (table : HashTable κ) : 0 < table.size :=
  List.length_pos_iff.mpr table.nonempty

theorem index_lt (table : HashTable κ) (hash : κ → ℕ) (key : κ) :
    table.index hash key < table.size :=
  Nat.mod_lt _ table.size_pos

theorem expand_ne_nil (table : HashTable κ) (hash : κ → ℕ) :
    table.expand hash (table.size * 4) ≠ [] := by
  have length := foldl_push_length (fun key => hash key % (table.size * 4)) table.keys
    (List.replicate (table.size * 4) [])
  have positive := table.size_pos
  intro empty
  unfold expand at empty
  rw [empty, List.length_nil, List.length_replicate] at length
  omega

/-- `dict_expand_if_needed`. -/
def expandIfNeeded (table : HashTable κ) (hash : κ → ℕ) : HashTable κ :=
  if table.keys.length ≥ table.size * 4 then
    ⟨table.expand hash (table.size * 4), table.expand_ne_nil hash⟩
  else table

theorem push_ne_nil (key : κ) (i : ℕ) {buckets : List (List κ)} (nonempty : buckets ≠ []) :
    push key i buckets ≠ [] := by
  rw [← List.length_pos_iff, push_length]
  exact List.length_pos_iff.mpr nonempty

variable [DecidableEq κ]

/-- `dict_find`. -/
def find (table : HashTable κ) (hash : κ → ℕ) (key : κ) : Bool :=
  (table.bucket hash key).contains key

/-- `dict_add`. -/
def add (table : HashTable κ) (hash : κ → ℕ) (key : κ) : HashTable κ :=
  if table.find hash key then table
  else
    let table := table.expandIfNeeded hash
    ⟨push key (table.index hash key) table.buckets, push_ne_nil _ _ table.nonempty⟩

/-- `dict_delete`: the first of the key in its bucket. -/
def delete (table : HashTable κ) (hash : κ → ℕ) (key : κ) : HashTable κ :=
  ⟨table.buckets.modify (table.index hash key) (·.erase key), by
    rw [← List.length_pos_iff, List.length_modify]
    exact List.length_pos_iff.mpr table.nonempty⟩

/-! ## What a table holds -/

section Holds

variable {table : HashTable κ} {hash : κ → ℕ} {key other : κ}

omit [DecidableEq κ] in
theorem push_perm {i : ℕ} {buckets : List (List κ)} (inside : i < buckets.length) :
    (push key i buckets).flatten.Perm (key :: buckets.flatten) := by
  induction buckets generalizing i with
  | nil => cases inside
  | cons bucket buckets ih =>
      cases i with
      | zero => exact List.Perm.refl _
      | succ i =>
          have rest := ih (Nat.lt_of_succ_lt_succ inside)
          change (bucket ++ (push key i buckets).flatten).Perm (key :: (bucket ++ buckets.flatten))
          exact (rest.append_left bucket).trans List.perm_middle

omit [DecidableEq κ] in
theorem foldl_push_perm {index : κ → ℕ} {keys : List κ} {buckets : List (List κ)}
    (inside : ∀ key, index key < buckets.length) :
    (keys.foldl (fun buckets key => push key (index key) buckets) buckets).flatten.Perm
      (keys ++ buckets.flatten) := by
  induction keys generalizing buckets with
  | nil => exact List.Perm.refl _
  | cons key keys ih =>
      have next := @ih (push key (index key) buckets) fun key' => by
        rw [push_length]
        exact inside key'
      exact (next.trans ((push_perm (inside key)).append_left keys)).trans List.perm_middle

omit [DecidableEq κ] in
/-- Growing keeps all keys. -/
theorem expandIfNeeded_perm (table : HashTable κ) (hash : κ → ℕ) :
    (table.expandIfNeeded hash).keys.Perm table.keys := by
  unfold expandIfNeeded
  split
  · have positive := table.size_pos
    have all := @foldl_push_perm _ (fun key => hash key % (table.size * 4)) table.keys
      (List.replicate (table.size * 4) []) fun key => by
        rw [List.length_replicate]
        exact Nat.mod_lt _ (by omega)
    rw [List.flatten_replicate_nil, List.append_nil] at all
    exact all
  · exact List.Perm.refl _

theorem add_of_find (found : table.find hash key = true) : table.add hash key = table :=
  if_pos found

/-- What is not found is added, though it may be there in another bucket. -/
theorem count_add (absent : table.find hash key = false) (other : κ) :
    (table.add hash key).keys.count other =
      table.keys.count other + if key = other then 1 else 0 := by
  have inside := (table.expandIfNeeded hash).index_lt hash key
  have perm : (table.add hash key).keys.Perm (key :: table.keys) := by
    unfold add
    rw [if_neg (by rw [absent]; exact Bool.false_ne_true)]
    exact (push_perm inside).trans ((table.expandIfNeeded_perm hash).cons key)
  rw [perm.count_eq, List.count_cons]
  simp only [beq_iff_eq]

theorem delete_keys (table : HashTable κ) (hash : κ → ℕ) (key : κ) :
    ∃ before after, table.keys = before ++ (table.bucket hash key ++ after) ∧
      (table.delete hash key).keys = before ++ ((table.bucket hash key).erase key ++ after) := by
  have inside : table.index hash key < table.buckets.length := table.index_lt hash key
  have here : table.bucket hash key = table.buckets[table.index hash key] := by
    unfold bucket
    rw [List.getD_eq_getElem?_getD, List.getElem?_eq_getElem inside, Option.getD_some]
  refine ⟨(table.buckets.take (table.index hash key)).flatten,
    (table.buckets.drop (table.index hash key + 1)).flatten, ?_, ?_⟩
  · unfold keys
    rw [here, ← List.flatten_cons, ← List.flatten_append, List.getElem_cons_drop,
      List.take_append_drop]
  · rw [here, ← List.flatten_cons, ← List.flatten_append]
    exact congrArg List.flatten (List.modify_eq_take_cons_drop inside)

/-- A key that is in its bucket is in the table. -/
theorem mem_keys_of_find (found : table.find hash key = true) : key ∈ table.keys := by
  obtain ⟨before, after, eq, _⟩ := table.delete_keys hash key
  rw [eq]
  apply List.mem_append_right
  exact List.mem_append_left _ (List.contains_iff_mem.mp found)

/-- A key that is found is taken out once. -/
theorem count_delete (found : table.find hash key = true) (other : κ) :
    (table.delete hash key).keys.count other + (if key = other then 1 else 0) =
      table.keys.count other := by
  obtain ⟨before, after, eq, eq'⟩ := table.delete_keys hash key
  have mem : key ∈ table.bucket hash key := List.contains_iff_mem.mp found
  have some_ : 0 < (table.bucket hash key).count key := List.count_pos_iff.mpr mem
  rw [eq, eq']
  simp only [List.count_append, List.count_erase]
  by_cases same : key = other
  · subst same
    simp only [beq_self_eq_true, if_true]
    omega
  · have differ : ¬(key == other) = true := fun same' => same (eq_of_beq same')
    rw [if_neg same, if_neg differ]
    omega

/-- A key that is not found stays where it is. -/
theorem delete_of_not_find (absent : table.find hash key = false) :
    (table.delete hash key).keys = table.keys := by
  obtain ⟨before, after, eq, eq'⟩ := table.delete_keys hash key
  have notMem : key ∉ table.bucket hash key := fun mem => by
    have found : table.find hash key = true := List.contains_iff_mem.mpr mem
    rw [absent] at found
    cases found
  rw [eq, eq', List.erase_of_not_mem notMem]

theorem mem_of_mem_delete (mem : other ∈ (table.delete hash key).keys) : other ∈ table.keys := by
  obtain ⟨before, after, eq, eq'⟩ := table.delete_keys hash key
  rw [eq]
  rw [eq'] at mem
  rcases List.mem_append.mp mem with early | mem
  · exact List.mem_append_left _ early
  · apply List.mem_append_right
    rcases List.mem_append.mp mem with here | late
    · exact List.mem_append_left _ (List.mem_of_mem_erase here)
    · exact List.mem_append_right _ late

theorem mem_of_mem_add (mem : other ∈ (table.add hash key).keys) :
    other = key ∨ other ∈ table.keys := by
  cases found : table.find hash key with
  | true =>
      rw [add_of_find found] at mem
      exact Or.inr mem
  | false =>
      have count := count_add found other
      have some_ := List.count_pos_iff.mpr mem
      by_cases same : key = other
      · exact Or.inl same.symm
      · rw [count, if_neg same, Nat.add_zero] at some_
        exact Or.inr (List.count_pos_iff.mp some_)

theorem mem_keys_add : key ∈ (table.add hash key).keys := by
  cases found : table.find hash key with
  | true =>
      rw [add_of_find found]
      exact mem_keys_of_find found
  | false =>
      apply List.count_pos_iff.mp
      rw [count_add found, if_pos rfl]
      exact Nat.succ_pos _

theorem perm_add (absent : table.find hash key = false) :
    (table.add hash key).keys.Perm (key :: table.keys) := by
  rw [List.perm_iff_count]
  intro other
  rw [count_add absent, List.count_cons]
  simp only [beq_iff_eq]

theorem find_of_not_mem (absent : key ∉ table.keys) : table.find hash key = false :=
  Bool.eq_false_iff.mpr fun found => absent (mem_keys_of_find found)

theorem size_delete (table : HashTable κ) (hash : κ → ℕ) (key : κ) :
    (table.delete hash key).size = table.size :=
  List.length_modify ..

theorem add_of_not_find (absent : table.find hash key = false) :
    (table.add hash key).buckets =
      push key ((table.expandIfNeeded hash).index hash key)
        (table.expandIfNeeded hash).buckets := by
  unfold add
  rw [if_neg (by rw [absent]; exact Bool.false_ne_true)]

/-- A table with room does not grow. -/
theorem size_add (room : table.keys.length < table.size * 4) :
    (table.add hash key).size = table.size := by
  cases found : table.find hash key with
  | true => rw [add_of_find found]
  | false =>
      have same : table.expandIfNeeded hash = table := if_neg (Nat.not_le.mpr room)
      have buckets := add_of_not_find found
      rw [same] at buckets
      unfold size
      rw [buckets, push_length]

omit [DecidableEq κ] in
theorem mem_push {i j : ℕ} {buckets : List (List κ)}
    (mem : other ∈ (push key i buckets).getD j []) :
    (other = key ∧ i = j) ∨ other ∈ buckets.getD j [] := by
  unfold push at mem
  rw [List.getD_eq_getElem?_getD, List.getElem?_modify] at mem
  cases at_ : buckets[j]? with
  | none =>
      rw [at_] at mem
      cases mem
  | some bucket =>
      simp only [at_, Option.map_eq_map, Option.map_some, Option.getD_some] at mem
      rw [List.getD_eq_getElem?_getD, at_]
      by_cases same : i = j
      · rw [if_pos same] at mem
        rcases List.mem_cons.mp mem with new | there
        · exact Or.inl ⟨new, same⟩
        · exact Or.inr there
      · rw [if_neg same] at mem
        exact Or.inr mem

omit [DecidableEq κ] in
theorem mem_foldl_push {index : κ → ℕ} {keys : List κ} {buckets : List (List κ)} {j : ℕ}
    (mem : other ∈ (keys.foldl (fun buckets key => push key (index key) buckets) buckets).getD
      j []) : index other = j ∨ other ∈ buckets.getD j [] := by
  induction keys generalizing buckets with
  | nil => exact Or.inr mem
  | cons key keys ih =>
      rcases ih mem with here | pushed
      · exact Or.inl here
      · rcases mem_push pushed with ⟨rfl, here⟩ | there
        · exact Or.inl here
        · exact Or.inr there

/-- A table that grows puts a key where its hash leads then, and it is not found by another
one. -/
theorem find_add_grown {hash' : κ → ℕ} (absent : table.find hash key = false)
    (full : table.size * 4 ≤ table.keys.length) (differ : other ≠ key)
    (moved : hash other % (table.size * 4) ≠ hash' other % (table.size * 4)) :
    (table.add hash key).find hash' other = false := by
  have grown : (table.expandIfNeeded hash).buckets = table.expand hash (table.size * 4) := by
    unfold expandIfNeeded
    rw [if_pos full]
  have buckets := add_of_not_find absent
  rw [grown] at buckets
  have size : (table.add hash key).size = table.size * 4 := by
    unfold HashTable.size
    rw [buckets, push_length]
    unfold expand
    rw [foldl_push_length, List.length_replicate]
    rfl
  rw [Bool.eq_false_iff]
  intro found
  have mem := List.contains_iff_mem.mp found
  unfold bucket index at mem
  rw [size, buckets] at mem
  rcases mem_push mem with ⟨same, _⟩ | there
  · exact differ same
  · rcases mem_foldl_push there with here | none_
    · exact moved here
    · rw [List.getD_eq_getElem?_getD, List.getElem?_replicate] at none_
      split at none_ <;> cases none_

omit [DecidableEq κ] in
theorem keys_create (size : ℕ) (positive : size ≠ 0) :
    (create size positive : HashTable κ).keys = [] :=
  List.flatten_replicate_nil

end Holds

end HashTable

end ViabtcServer.Container
