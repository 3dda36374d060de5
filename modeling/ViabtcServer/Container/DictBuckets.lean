import ViabtcServer.Container.DictTable
import ViabtcServer.Container.Dict

/-!
# What a dictionary holds

However badly the keys are spread, an entry is in the bucket of its hash, and no
two entries have one key: the dictionary is a finite map.
-/

namespace ViabtcServer.Container

open Memory

variable {ρ K V κ : Type}

/-- An entry: its address, its key, its value and its number. -/
abbrev DictItem (ρ K V : Type) : Type :=
  ρ × K × V × ℕ

/-- Keys that compare equal are one key under two representations, and have one hash. -/
structure DictTypes.Names (type : DictTypes K) (name : K → κ) : Prop where
  compare_iff : ∀ key key', type.keyCompare key key' = 0 ↔ name key = name key'
  hash_eq : ∀ key key', name key = name key' → type.hashFunction key = type.hashFunction key'

/-- The bucket of an entry. -/
def DictT.home (dt : DictT ρ K V) (entry : K × V × ℕ) : ℕ :=
  dt.index entry.1

/-- The dictionary has these entries. -/
structure HoldsEntries (name : K → κ) (dt : DictT ρ K V) (xs : List (DictItem ρ K V)) : Prop where
  names : dt.type.Names name
  buckets : Buckets dictLinked dt.table dt.nodes dt.size dt.home xs
  mask : dt.mask = dt.size - 1
  power : ∃ k, dt.size = 2 ^ k ∧ 2 ≤ k ∧ k ≤ 31
  used : dt.used = xs.length
  few : xs.length < 2 ^ 32
  keys : (xs.map fun x => name x.2.1).Nodup
  idClear : dt.idClear = 0

namespace HoldsEntries

variable {name : K → κ} {dt : DictT ρ K V} {xs l r : List (DictItem ρ K V)} {x : DictItem ρ K V}
  {key : K} {val : V} {a : ρ}

theorem size_pos (holds : HoldsEntries name dt xs) : 0 < dt.size := by
  rcases holds.power with ⟨k, eq, _⟩
  rw [eq]
  exact Nat.two_pow_pos k

theorem index_lt (holds : HoldsEntries name dt xs) (key : K) : dt.index key < dt.size := by
  have below : dt.index key ≤ dt.mask := Nat.and_le_right
  have positive := holds.size_pos
  rw [holds.mask] at below
  omega

theorem index_eq (holds : HoldsEntries name dt xs) {key key' : K} (same : name key = name key') :
    dt.index key = dt.index key' := by
  unfold DictT.index
  rw [holds.names.hash_eq key key' same]

theorem apart (holds : HoldsEntries name dt (l ++ x :: r)) (same : name x.2.1 = name key) :
    ∀ y ∈ l ++ r, name y.2.1 ≠ name key := by
  intro y mem equal
  have nodup := holds.keys
  rw [List.map_append, List.map_cons] at nodup
  apply (List.nodup_cons.mp (List.nodup_middle.mp nodup)).1
  rw [← List.map_append]
  exact List.mem_map.mpr ⟨y, mem, equal.trans same.symm⟩

/-! ## Searches -/

/-- A search for a key that is present. -/
theorem seek_present (holds : HoldsEntries name dt (l ++ x :: r)) (same : name x.2.1 = name key)
    {test : K × V × ℕ → Bool} (tests : ∀ entry, test entry = true ↔ name entry.1 = name key) :
    ∃ start, dt.table (dt.index key) = some start ∧
      seek dictLinked dt.nodes test dt.used none start =
        some (some ((bucket dt.home (dt.home x.2) l).getLast?, x.1)) := by
  rw [← holds.index_eq same]
  apply holds.buckets.seek_found
  · intro y mem _
    rw [Bool.eq_false_iff, Ne, tests]
    exact holds.apart same y (List.mem_append_left r mem)
  · exact (tests x.2).mpr same
  · exact Nat.le_of_eq holds.used.symm

/-- A search for a key that is not present. -/
theorem seek_absent (holds : HoldsEntries name dt xs)
    (absent : ∀ x ∈ xs, name x.2.1 ≠ name key) {test : K × V × ℕ → Bool}
    (tests : ∀ entry, test entry = true ↔ name entry.1 = name key) :
    ∃ start, dt.table (dt.index key) = some start ∧
      seek dictLinked dt.nodes test dt.used none start = some none := by
  apply holds.buckets.seek_none (holds.index_lt key)
  · intro y mem _
    rw [Bool.eq_false_iff, Ne, tests]
    exact absent y mem
  · exact Nat.le_of_eq holds.used.symm

theorem find_present [DecidableEq ρ] (holds : HoldsEntries name dt (l ++ x :: r))
    (same : name x.2.1 = name key) : dt.find key = some (dt, some x.1) := by
  have tests (entry : K × V × ℕ) : decide (dt.type.keyCompare key entry.1 = 0) = true ↔
      name entry.1 = name key := by
    rw [decide_eq_true_iff, holds.names.compare_iff]
    exact eq_comm
  rcases holds.seek_present same tests with ⟨start, pointer, walk⟩
  unfold DictT.find
  rw [holds.idClear, if_neg (Nat.lt_irrefl 0), Option.bind_some, pointer, Option.bind_some, walk]
  rfl

theorem find_absent [DecidableEq ρ] (holds : HoldsEntries name dt xs)
    (absent : ∀ x ∈ xs, name x.2.1 ≠ name key) : dt.find key = some (dt, none) := by
  have tests (entry : K × V × ℕ) : decide (dt.type.keyCompare key entry.1 = 0) = true ↔
      name entry.1 = name key := by
    rw [decide_eq_true_iff, holds.names.compare_iff]
    exact eq_comm
  rcases holds.seek_absent absent tests with ⟨start, pointer, walk⟩
  unfold DictT.find
  rw [holds.idClear, if_neg (Nat.lt_irrefl 0), Option.bind_some, pointer, Option.bind_some, walk]
  rfl

/-- Either an entry has the key or none has. -/
theorem cases_key [DecidableEq κ] (name : K → κ) (key : K) (xs : List (DictItem ρ K V)) :
    (∃ l x r, xs = l ++ x :: r ∧ name x.2.1 = name key) ∨ ∀ x ∈ xs, name x.2.1 ≠ name key := by
  by_cases present : ∃ x ∈ xs, name x.2.1 = name key
  · rcases present with ⟨x, mem, same⟩
    rcases List.append_of_mem mem with ⟨l, r, split⟩
    exact Or.inl ⟨l, x, r, split, same⟩
  · exact Or.inr fun x mem same => present ⟨x, mem, same⟩

/-! ## Deletion -/

variable [DecidableEq ρ]

/-- Taking an entry out. -/
theorem remove_eq (holds : HoldsEntries name dt (l ++ x :: r)) :
    ∃ table nodes,
      dt.remove (dt.home x.2) (bucket dt.home (dt.home x.2) l).getLast? x.1 =
        some { dt with table, nodes, used := dt.used - 1 } ∧
      HoldsEntries name { dt with table, nodes, used := dt.used - 1 } (l ++ r) := by
  rcases holds.buckets.bypass_eq with ⟨table, nodes, run, alive, buckets⟩
  rcases exists_cell holds.buckets.next_eq with ⟨cell, found, next⟩
  change cell.next = _ at next
  have length : (l ++ x :: r).length = (l ++ r).length + 1 := by
    rw [List.length_append, List.length_append, List.length_cons]
    rfl
  have few := holds.few
  have wrap : (dt.used + (2 ^ 32 - 1)) % 2 ^ 32 = dt.used - 1 := by
    rw [holds.used]
    omega
  refine ⟨table, Function.update nodes x.1 none, ?_, ?_⟩
  · unfold DictT.remove
    rw [found, Option.bind_some, next, run, Option.bind_some]
    simp only
    rw [free_eq alive, wrap]
    rfl
  · constructor
    · exact holds.names
    · exact buckets
    · exact holds.mask
    · exact holds.power
    · change dt.used - 1 = (l ++ r).length
      rw [holds.used, length]
      rfl
    · omega
    · have nodup := holds.keys
      rw [List.map_append, List.map_cons] at nodup
      rw [List.map_append]
      exact (List.nodup_cons.mp (List.nodup_middle.mp nodup)).2
    · exact holds.idClear

theorem delete_present (holds : HoldsEntries name dt (l ++ x :: r))
    (same : name x.2.1 = name key) :
    ∃ table nodes, dt.delete key = some ({ dt with table, nodes, used := dt.used - 1 }, 1) ∧
      HoldsEntries name { dt with table, nodes, used := dt.used - 1 } (l ++ r) := by
  have tests (entry : K × V × ℕ) : decide (dt.type.keyCompare entry.1 key = 0) = true ↔
      name entry.1 = name key := by
    rw [decide_eq_true_iff, holds.names.compare_iff]
  rcases holds.seek_present same tests with ⟨start, pointer, walk⟩
  rcases holds.remove_eq with ⟨table, nodes, run, holds'⟩
  refine ⟨table, nodes, ?_, holds'⟩
  have index : dt.index key = dt.home x.2 := holds.index_eq same.symm
  unfold DictT.delete
  rw [pointer, Option.bind_some, walk, Option.bind_some]
  simp only
  rw [index, run]
  rfl

theorem delete_absent (holds : HoldsEntries name dt xs)
    (absent : ∀ x ∈ xs, name x.2.1 ≠ name key) : dt.delete key = some (dt, 0) := by
  have tests (entry : K × V × ℕ) : decide (dt.type.keyCompare entry.1 key = 0) = true ↔
      name entry.1 = name key := by
    rw [decide_eq_true_iff, holds.names.compare_iff]
  rcases holds.seek_absent absent tests with ⟨start, pointer, walk⟩
  unfold DictT.delete
  rw [pointer, Option.bind_some, walk]
  rfl

/-! ## Expansion -/

/-- An expansion keeps exactly the same entries. -/
theorem expand_eq (holds : HoldsEntries name dt xs) {size : ℕ} (small : size ≤ 2 ^ 31) :
    ∃ dt' xs', dt.expand size = some dt' ∧ size ≤ dt'.size ∧ xs'.Perm xs ∧
      HoldsEntries name dt' xs' := by
  rcases nextPower_eq small with ⟨m, next, reached, least, most⟩
  have stops : ∀ n, decide (n = 0) = true → n = 0 := fun n => of_decide_eq_true
  let home (entry : K × V × ℕ) : ℕ := dt.type.hashFunction entry.1 &&& (2 ^ m - 1)
  have homes : ∀ x ∈ xs, home x.2 < 2 ^ m := by
    intro x _
    change dt.type.hashFunction x.2.1 &&& (2 ^ m - 1) < 2 ^ m
    have below : dt.type.hashFunction x.2.1 &&& (2 ^ m - 1) ≤ 2 ^ m - 1 := Nat.and_le_right
    have positive := Nat.two_pow_pos m
    omega
  rcases holds.buckets.rehash homes stops (le_refl xs.length) with
    ⟨table, nodes, xs', run, perm, buckets⟩
  refine ⟨{ dt with table, size := 2 ^ m, mask := 2 ^ m - 1, nodes }, xs', ?_, reached, perm, ?_⟩
  · unfold DictT.expand
    rw [next, Option.bind_some, holds.used, run]
    rw [← holds.used]
    rfl
  · constructor
    · exact holds.names
    · exact buckets
    · rfl
    · exact ⟨m, rfl, least, most⟩
    · change dt.used = xs'.length
      rw [holds.used, perm.length_eq]
    · rw [perm.length_eq]
      exact holds.few
    · exact (perm.map _).nodup_iff.mpr holds.keys
    · exact holds.idClear

omit [DecidableEq ρ] in
/-- Four times the size fits, or wraps around to 0. -/
theorem quadruple_le (holds : HoldsEntries name dt xs) : dt.size * 4 % 2 ^ 32 ≤ 2 ^ 31 := by
  rcases holds.power with ⟨k, eq, _, most⟩
  have product : 2 ^ k * 4 = 2 ^ (k + 2) := by
    rw [Nat.pow_add]
  rw [eq, product]
  by_cases fits : k + 2 ≤ 31
  · have below : 2 ^ (k + 2) ≤ 2 ^ 31 := Nat.pow_le_pow_right Nat.two_pos fits
    exact (Nat.mod_le _ _).trans below
  · have wraps : 2 ^ 32 ∣ 2 ^ (k + 2) := Nat.pow_dvd_pow 2 (by omega)
    rw [Nat.mod_eq_zero_of_dvd wraps]
    exact Nat.zero_le _

theorem expandIfNeeded_eq (holds : HoldsEntries name dt xs) :
    ∃ dt' xs', dt.expandIfNeeded = some dt' ∧ xs'.Perm xs ∧ HoldsEntries name dt' xs' := by
  unfold DictT.expandIfNeeded
  split
  · rcases holds.expand_eq holds.quadruple_le with ⟨dt', xs', run, _, perm, holds'⟩
    exact ⟨dt', xs', run, perm, holds'⟩
  · exact ⟨dt, xs, rfl, List.Perm.refl xs, holds⟩

/-! ## Addition -/

theorem add_present (holds : HoldsEntries name dt (l ++ x :: r)) (same : name x.2.1 = name key) :
    dt.add a key val = some (dt, none) := by
  unfold DictT.add
  rw [holds.find_present same]
  rfl

/-- A new entry. -/
theorem add_absent (holds : HoldsEntries name dt xs) (val : V)
    (absent : ∀ x ∈ xs, name x.2.1 ≠ name key)
    (fresh : dt.nodes a = none) (room : xs.length + 1 < 2 ^ 32) :
    ∃ dt' xs' id, dt.add a key val = some (dt', some a) ∧ xs'.Perm xs ∧
      HoldsEntries name dt' ((a, key, val, id) :: xs') := by
  rcases holds.expandIfNeeded_eq with ⟨dt₁, xs₁, run, perm, holds₁⟩
  have fresh₁ : dt₁.nodes a = none := by
    by_contra used
    have inside := (perm.map Prod.fst).mem_iff.mp (holds₁.buckets.live a used)
    exact holds.buckets.alive inside fresh
  rcases holds₁.buckets.chains (dt₁.index key) (holds₁.index_lt key) with ⟨first, pointer, _⟩
  have buckets : Buckets dictLinked
      (Function.update dt₁.table (dt₁.index key) (some (some a)))
      (dt₁.nodes.alloc a ⟨key, val, dt₁.idStart, first⟩) dt₁.size dt₁.home
      ((a, key, val, dt₁.idStart) :: xs₁) :=
    holds₁.buckets.push (x := (a, key, val, dt₁.idStart)) fresh₁ pointer rfl rfl
      (holds₁.index_lt key)
  have length := perm.length_eq
  refine ⟨{ dt₁ with
    table := Function.update dt₁.table (dt₁.index key) (some (some a))
    used := (dt₁.used + 1) % 2 ^ 32
    idStart := dt₁.idStart + 1
    nodes := dt₁.nodes.alloc a ⟨key, val, dt₁.idStart, first⟩ }, xs₁, dt₁.idStart, ?_, perm,
    holds₁.names, buckets, holds₁.mask, holds₁.power, ?_, ?_, ?_, holds₁.idClear⟩
  · unfold DictT.add
    rw [holds.find_absent absent, Option.bind_some]
    simp only
    rw [run, Option.bind_some, pointer]
    rfl
  · change (dt₁.used + 1) % 2 ^ 32 = xs₁.length + 1
    rw [holds₁.used, length]
    exact Nat.mod_eq_of_lt room
  · change xs₁.length + 1 < 2 ^ 32
    rw [length]
    exact room
  · rw [List.map_cons]
    apply List.nodup_cons.mpr
    constructor
    · intro mem
      rcases List.mem_map.mp mem with ⟨y, among, equal⟩
      exact absent y (perm.mem_iff.mp among) equal
    · exact holds₁.keys

/-- A new value for a key that is present. -/
theorem replace_present (holds : HoldsEntries name dt (l ++ x :: r))
    (same : name x.2.1 = name key) :
    ∃ nodes, dt.replace a key val = some ({ dt with nodes }, 0) ∧
      HoldsEntries name { dt with nodes } (l ++ (x.1, x.2.1, val, x.2.2.2) :: r) := by
  have member : x ∈ l ++ x :: r := List.mem_append_right l List.mem_cons_self
  have alive : dt.nodes x.1 ≠ none := holds.buckets.alive (List.mem_map_of_mem member)
  have content (cell : DictEntry ρ K V) (eq : dictLinked.data cell = x.2) :
      dictLinked.data { cell with val } = (x.2.1, val, x.2.2.2) := by
    change (cell.key, val, cell.id) = (x.2.1, val, x.2.2.2)
    rw [← eq]
    rfl
  have buckets : Buckets dictLinked dt.table
      (dt.nodes.amend (some x.1) fun cell => { cell with val }) dt.size dt.home
      (l ++ (x.1, x.2.1, val, x.2.2.2) :: r) :=
    holds.buckets.amend (fun _ => rfl) content rfl
  refine ⟨dt.nodes.amend (some x.1) fun cell => { cell with val }, ?_, holds.names, buckets,
    holds.mask, holds.power, ?_, ?_, ?_, holds.idClear⟩
  · unfold DictT.replace
    rw [holds.find_present same, Option.bind_some]
    simp only
    rw [assign_eq alive]
    rfl
  · change dt.used = _
    rw [holds.used, List.length_append, List.length_append]
    rfl
  · have few := holds.few
    rw [List.length_append] at few ⊢
    exact few
  · have nodup := holds.keys
    rw [List.map_append, List.map_cons] at nodup ⊢
    exact nodup

theorem replace_absent (holds : HoldsEntries name dt xs)
    (absent : ∀ x ∈ xs, name x.2.1 ≠ name key) (fresh : dt.nodes a = none)
    (room : xs.length + 1 < 2 ^ 32) :
    ∃ dt' xs' id, dt.replace a key val = some (dt', 1) ∧ xs'.Perm xs ∧
      HoldsEntries name dt' ((a, key, val, id) :: xs') := by
  rcases holds.add_absent val absent fresh room with ⟨dt', xs', id, run, perm, holds'⟩
  refine ⟨dt', xs', id, ?_, perm, holds'⟩
  unfold DictT.replace
  rw [holds.find_absent absent, Option.bind_some]
  simp only
  rw [run]
  rfl

omit [DecidableEq ρ] in
/-- `dict_create`. -/
theorem create_holds {type : DictTypes K} (names : type.Names name) {initSize : ℕ}
    (small : initSize ≤ 2 ^ 31) :
    ∃ dt : DictT ρ K V, DictT.create type initSize = some dt ∧ HoldsEntries name dt [] := by
  rcases nextPower_eq small with ⟨m, next, _, least, most⟩
  refine ⟨_, by unfold DictT.create; rw [next]; rfl, names, Buckets.empty (2 ^ m), rfl,
    ⟨m, rfl, least, most⟩, rfl, Nat.two_pow_pos 32, List.nodup_nil, rfl⟩

end HoldsEntries

end ViabtcServer.Container
