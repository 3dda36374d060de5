import ViabtcServer.Network.StateTable

/-!
# What the table of waiting requests holds

Entries under distinct ids, each in the bucket of its id, with the timers that are
armed and the numbers of the entries that were released. The calls keep this, as
long as the table has fewer than 2^30 buckets when an entry is added.
-/

namespace ViabtcServer.Network

open Memory Container

variable {ρ : Type}

/-- An entry: its address, its id and its number. -/
abbrev StateItem (ρ : Type) : Type :=
  ρ × BitVec 32 × ℕ

/-- The bucket of an entry. -/
def StateTable.home (context : StateTable ρ) (entry : BitVec 32 × ℕ) : ℕ :=
  entry.1.toNat &&& context.tableMask

/-- The table has these entries, and all their timers are armed but those of the `stopped`. -/
structure HoldsStates (context : StateTable ρ) (stopped : List ρ) (xs : List (StateItem ρ)) :
    Prop where
  buckets : Buckets stateLinked context.table context.nodes context.tableSize context.home xs
  mask : context.tableMask = context.tableSize - 1
  power : ∃ k ≤ 12, context.tableSize = 64 * 4 ^ k
  used : context.used = xs.length
  load : xs.length ≤ context.tableSize * 4
  few : xs.length ≤ 2 ^ 30 + 1
  ids : (xs.map fun x => x.2.1).Nodup
  nonzero : ∀ x ∈ xs, x.2.1 ≠ 0
  armed : ∀ a, context.armed a = true ↔ a ∈ xs.map Prod.fst ∧ a ∉ stopped
  stops : ∀ a ∈ stopped, a ∈ xs.map Prod.fst
  serials : (xs.map (fun x => x.2.2) ++ context.released.map Prod.fst).Perm
    (List.range context.births)

/-- The association of ids and entries that the table stands for, with the last id. -/
structure Stands (context : StateTable ρ) (xs : List (StateItem ρ)) (state : NwState ρ) : Prop where
  idStart : state.idStart = context.idStart
  find : ∀ id a, dictFind state.table id = some a ↔ ∃ x ∈ xs, x.1 = a ∧ x.2.1 = id

namespace HoldsStates

variable {context : StateTable ρ} {stopped : List ρ} {xs l r : List (StateItem ρ)}
  {x : StateItem ρ} {a : ρ} {id : BitVec 32}

theorem size_pos (holds : HoldsStates context stopped xs) : 0 < context.tableSize := by
  rcases holds.power with ⟨k, _, eq⟩
  rw [eq]
  exact Nat.mul_pos (Nat.zero_lt_succ 63) (Nat.pow_pos (Nat.zero_lt_succ 3))

theorem index_lt (holds : HoldsStates context stopped xs) (id : BitVec 32) :
    id.toNat &&& context.tableMask < context.tableSize := by
  have below : id.toNat &&& context.tableMask ≤ context.tableMask := Nat.and_le_right
  have mask := holds.mask
  have positive := holds.size_pos
  omega

/-- No two entries have one id. -/
theorem unique (holds : HoldsStates context stopped xs) {y : StateItem ρ} (memX : x ∈ xs)
    (memY : y ∈ xs) (same : x.2.1 = y.2.1) : x = y :=
  List.inj_on_of_nodup_map holds.ids memX memY same

theorem apart (holds : HoldsStates context stopped (l ++ x :: r)) :
    ∀ y ∈ l ++ r, y.2.1 ≠ x.2.1 := by
  intro y mem equal
  have nodup := holds.ids
  rw [List.map_append, List.map_cons] at nodup
  apply (List.nodup_cons.mp (List.nodup_middle.mp nodup)).1
  rw [← List.map_append]
  exact List.mem_map.mpr ⟨y, mem, equal⟩

/-! ## Searches -/

theorem seek_present (holds : HoldsStates context stopped (l ++ x :: r)) :
    ∃ start, context.table (x.2.1.toNat &&& context.tableMask) = some start ∧
      seek stateLinked context.nodes (fun other => other.1 = x.2.1) context.used none start =
        some (some ((bucket context.home (context.home x.2) l).getLast?, x.1)) := by
  apply holds.buckets.seek_found
  · intro y mem _
    exact decide_eq_false (holds.apart y (List.mem_append_left r mem))
  · exact decide_eq_true rfl
  · exact Nat.le_of_eq holds.used.symm

theorem get_present (holds : HoldsStates context stopped (l ++ x :: r)) :
    context.get x.2.1 = some (some x.1) := by
  rcases holds.seek_present with ⟨start, pointer, walk⟩
  unfold StateTable.get
  rw [pointer, Option.bind_some, walk]
  rfl

theorem seek_absent (holds : HoldsStates context stopped xs) (absent : ∀ x ∈ xs, x.2.1 ≠ id) :
    ∃ start, context.table (id.toNat &&& context.tableMask) = some start ∧
      seek stateLinked context.nodes (fun other => other.1 = id) context.used none start =
        some none := by
  apply holds.buckets.seek_none (holds.index_lt id)
  · exact fun y mem _ => decide_eq_false (absent y mem)
  · exact Nat.le_of_eq holds.used.symm

theorem get_absent (holds : HoldsStates context stopped xs) (absent : ∀ x ∈ xs, x.2.1 ≠ id) :
    context.get id = some none := by
  rcases holds.seek_absent absent with ⟨start, pointer, walk⟩
  unfold StateTable.get
  rw [pointer, Option.bind_some, walk]
  rfl

/-- Either an entry has the id or none has. -/
theorem cases_id (id : BitVec 32) (xs : List (StateItem ρ)) :
    (∃ l x r, xs = l ++ x :: r ∧ x.2.1 = id) ∨ ∀ x ∈ xs, x.2.1 ≠ id := by
  by_cases present : ∃ x ∈ xs, x.2.1 = id
  · rcases present with ⟨x, mem, same⟩
    rcases List.append_of_mem mem with ⟨l, r, split⟩
    exact Or.inl ⟨l, x, r, split, same⟩
  · exact Or.inr fun x mem same => present ⟨x, mem, same⟩

/-- `nw_state_get` returns exactly the entry with the id. -/
theorem get_eq (holds : HoldsStates context stopped xs) (id : BitVec 32) :
    ∃ found, context.get id = some found ∧
      ∀ a, found = some a ↔ ∃ x ∈ xs, x.1 = a ∧ x.2.1 = id := by
  rcases cases_id id xs with ⟨l, x, r, rfl, rfl⟩ | absent
  · refine ⟨some x.1, holds.get_present, ?_⟩
    intro a
    constructor
    · rintro ⟨rfl⟩
      exact ⟨x, List.mem_append_right l List.mem_cons_self, rfl, rfl⟩
    · rintro ⟨y, mem, rfl, same⟩
      rw [holds.unique mem (List.mem_append_right l List.mem_cons_self) same]
  · refine ⟨none, holds.get_absent absent, ?_⟩
    intro a
    apply iff_of_false (Option.some_ne_none a).symm
    rintro ⟨x, mem, _, same⟩
    exact absent x mem same

/-! ## Ids -/

section Stands

variable {state : NwState ρ}

/-- What the table answers, as the association of ids and entries. -/
def answers (holds : HoldsStates context stopped xs) : NwState ρ where
  table := ⟨xs.map fun x => ⟨x.2.1, x.1⟩, by
    rw [List.NodupKeys, List.keys, List.map_map]
    exact holds.ids⟩
  idStart := context.idStart

theorem stands (holds : HoldsStates context stopped xs) : Stands context xs holds.answers where
  idStart := rfl
  find := by
    intro id a
    have entry : (⟨id, a⟩ : Sigma fun _ : BitVec 32 => ρ) ∈ holds.answers.table.entries ↔
        dictFind holds.answers.table id = some a := mem_entries_iff
    rw [← entry, answers, List.mem_map]
    constructor
    · rintro ⟨x, mem, same⟩
      cases same
      exact ⟨x, mem, rfl, rfl⟩
    · rintro ⟨x, mem, rfl, rfl⟩
      exact ⟨x, mem, rfl⟩

theorem get_stands (holds : HoldsStates context stopped xs) (stands : Stands context xs state)
    (id : BitVec 32) : context.get id = some (nwStateGet state id) := by
  rcases holds.get_eq id with ⟨found, run, iff⟩
  rw [run]
  congr 1
  apply Option.ext
  intro a
  rw [iff a]
  exact (stands.find id a).symm

theorem count_stands (holds : HoldsStates context stopped xs) (stands : Stands context xs state) :
    nwStateCount state = xs.length := by
  have perm : state.table.entries.Perm (xs.map fun x => ⟨x.2.1, x.1⟩) := by
    have nodup : (xs.map fun x => (⟨x.2.1, x.1⟩ : Sigma fun _ : BitVec 32 => ρ)).Nodup := by
      apply List.Nodup.of_map Sigma.fst
      rw [List.map_map]
      exact holds.ids
    rw [List.perm_ext_iff_of_nodup state.table.nodupKeys.nodup nodup]
    rintro ⟨id, a⟩
    rw [mem_entries_iff, stands.find, List.mem_map]
    constructor
    · rintro ⟨x, mem, rfl, rfl⟩
      exact ⟨x, mem, rfl⟩
    · rintro ⟨x, mem, same⟩
      cases same
      exact ⟨x, mem, rfl, rfl⟩
  exact perm.length_eq.trans (List.length_map _)

theorem availableIdLoop_eq (holds : HoldsStates context stopped xs)
    (stands : Stands context xs state) (fuel : ℕ) (idStart : BitVec 32) :
    context.availableIdLoop fuel idStart = availableId state.table fuel idStart := by
  induction fuel generalizing idStart with
  | zero => rfl
  | succ fuel ih =>
      unfold StateTable.availableIdLoop availableId
      rw [holds.get_stands stands, Option.bind_some]
      unfold nwStateGet
      cases dictFind state.table (nextId idStart) with
      | none => rfl
      | some _ => exact ih (nextId idStart)

/-- The search for an id is that of the association, and ends. -/
theorem availableId_stands (holds : HoldsStates context stopped xs)
    (stands : Stands context xs state) (room : xs.length < 2 ^ 32 - 1) :
    ∃ id, context.availableIdLoop (2 ^ 32) context.idStart = some id ∧
      getAvailableId state = some id ∧ id ≠ 0 ∧ ∀ x ∈ xs, x.2.1 ≠ id := by
  rw [← holds.count_stands stands] at room
  rcases Option.isSome_iff_exists.mp (getAvailableId_isSome room) with ⟨id, found⟩
  rcases availableId_some found with ⟨nonzero, unused⟩
  refine ⟨id, ?_, found, nonzero, ?_⟩
  · rw [holds.availableIdLoop_eq stands, ← stands.idStart]
    exact found
  · rintro x mem rfl
    have there := (stands.find x.2.1 x.1).mpr ⟨x, mem, rfl, rfl⟩
    rw [unused] at there
    cases there

/-- The search for an id ends with one that is not 0 and not in use. -/
theorem availableId_ends (holds : HoldsStates context stopped xs)
    (room : xs.length < 2 ^ 32 - 1) :
    ∃ id, context.availableIdLoop (2 ^ 32) context.idStart = some id ∧ id ≠ 0 ∧
      ∀ x ∈ xs, x.2.1 ≠ id := by
  rcases holds.availableId_stands holds.stands room with ⟨id, found, _, nonzero, absent⟩
  exact ⟨id, found, nonzero, absent⟩

/-- An entry under an id that is not in use. -/
theorem stands_replace {context' : StateTable ρ} {xs' : List (StateItem ρ)} {idStart : BitVec 32}
    {n : ℕ} (stands : Stands context xs state) (perm : xs'.Perm ((a, id, n) :: xs))
    (absent : ∀ x ∈ xs, x.2.1 ≠ id) (last : context'.idStart = idStart) :
    Stands context' xs' ⟨dictReplace state.table id a, idStart⟩ := by
  refine ⟨last.symm, fun other b => ?_⟩
  simp only [perm.mem_iff, List.mem_cons]
  by_cases same : other = id
  · subst same
    rw [dictFind_replace]
    constructor
    · rintro ⟨rfl⟩
      exact ⟨_, Or.inl rfl, rfl, rfl⟩
    · rintro ⟨x, rfl | mem, rfl, own⟩
      · rfl
      · exact absurd own (absent x mem)
  · rw [dictFind_replace_ne same, stands.find]
    constructor
    · rintro ⟨x, mem, both⟩
      exact ⟨x, Or.inr mem, both⟩
    · rintro ⟨x, rfl | mem, both⟩
      · exact absurd both.2.symm same
      · exact ⟨x, mem, both⟩

/-- An entry is gone. -/
theorem stands_delete {context' : StateTable ρ} (stands : Stands context (l ++ x :: r) state)
    (apart : ∀ y ∈ l ++ r, y.2.1 ≠ x.2.1) (last : context'.idStart = context.idStart) :
    Stands context' (l ++ r) (nwStateDel state x.2.1) := by
  refine ⟨stands.idStart.trans last.symm, fun other b => ?_⟩
  unfold nwStateDel
  simp only
  by_cases same : other = x.2.1
  · subst same
    rw [dictFind_delete]
    apply iff_of_false (Option.some_ne_none _).symm
    rintro ⟨y, mem, _, own⟩
    exact apart y mem own
  · rw [dictFind_delete_ne same, stands.find]
    constructor
    · rintro ⟨y, mem, here, own⟩
      refine ⟨y, ?_, here, own⟩
      rcases List.mem_append.mp mem with inL | inRest
      · exact List.mem_append_left r inL
      · rcases List.mem_cons.mp inRest with rfl | inR
        · exact absurd own.symm same
        · exact List.mem_append_right l inR
    · rintro ⟨y, mem, both⟩
      refine ⟨y, ?_, both⟩
      rcases List.mem_append.mp mem with inL | inR
      · exact List.mem_append_left _ inL
      · exact List.mem_append_right l (List.mem_cons_of_mem x inR)

end Stands

/-! ## Removal -/

variable [DecidableEq ρ]

omit [DecidableEq ρ] in
theorem create_holds : HoldsStates (StateTable.create : StateTable ρ) [] [] where
  buckets := Buckets.empty 64
  mask := rfl
  power := ⟨0, Nat.zero_le 12, rfl⟩
  used := rfl
  load := Nat.zero_le _
  few := Nat.zero_le _
  ids := List.nodup_nil
  nonzero := fun _ mem => absurd mem List.not_mem_nil
  armed := fun _ => iff_of_false Bool.false_ne_true fun both => absurd both.1 List.not_mem_nil
  stops := fun _ mem => absurd mem List.not_mem_nil
  serials := List.Perm.refl []

omit [DecidableEq ρ] in
/-- An entry without its number. -/
theorem serials_middle {log : List (ℕ × Release)} {births : ℕ} {cause : Release}
    (perm : ((l ++ x :: r).map (fun x => x.2.2) ++ log.map Prod.fst).Perm (List.range births)) :
    ((l ++ r).map (fun x => x.2.2) ++ (log ++ [(x.2.2, cause)]).map Prod.fst).Perm
      (List.range births) := by
  have out : ((l ++ x :: r).map fun x => x.2.2).Perm (x.2.2 :: (l ++ r).map fun x => x.2.2) := by
    rw [List.map_append, List.map_cons, List.map_append]
    exact List.perm_middle
  have behind : (log ++ [(x.2.2, cause)]).map Prod.fst = log.map Prod.fst ++ [x.2.2] :=
    List.map_append
  rw [behind, ← List.append_assoc]
  apply (List.perm_append_singleton _ _).trans
  exact (out.symm.append_right _).trans perm

omit [DecidableEq ρ] in
theorem mem_nodes_middle :
    a ∈ (l ++ x :: r).map Prod.fst ↔ a = x.1 ∨ a ∈ (l ++ r).map Prod.fst := by
  rw [List.map_append, List.map_cons, List.mem_append, List.mem_cons, List.map_append,
    List.mem_append]
  exact or_left_comm

/-- `state_remove` on an entry whose timer is not armed. -/
theorem stateRemove_eq (holds : HoldsStates context (x.1 :: stopped) (l ++ x :: r))
    (differ : x.1 ∉ stopped) (cause : Release) :
    ∃ context', context.stateRemove x.1 cause = some context' ∧
      HoldsStates context' stopped (l ++ r) ∧ context'.idStart = context.idStart := by
  have other := notMem_of_nodup holds.buckets.nodup
  have member : x ∈ l ++ x :: r := List.mem_append_right l List.mem_cons_self
  rcases holds.buckets.bypass_eq with ⟨table, nodes, run, alive, buckets⟩
  rcases exists_cell (holds.buckets.cells x member) with ⟨cell, found, data⟩
  rcases exists_cell holds.buckets.next_eq with ⟨cell', found', next⟩
  rw [found] at found'
  cases found'
  have id : cell.id = x.2.1 := congrArg Prod.fst data
  have serial : cell.serial = x.2.2 := congrArg Prod.snd data
  change cell.next = _ at next
  rcases holds.seek_present with ⟨start, pointer, walk⟩
  have length : (l ++ x :: r).length = (l ++ r).length + 1 := by
    rw [List.length_append, List.length_append, List.length_cons]
    rfl
  have few := holds.few
  have load := holds.load
  have wrap : (context.used + (2 ^ 32 - 1)) % 2 ^ 32 = (l ++ r).length := by
    rw [holds.used]
    omega
  refine ⟨{ context with
    table
    nodes := Function.update nodes x.1 none
    used := (l ++ r).length
    released := context.released ++ [(x.2.2, cause)] }, ?_, ?_⟩
  · unfold StateTable.stateRemove
    rw [found, Option.bind_some, id, pointer, Option.bind_some, walk, Option.bind_some]
    simp only
    rw [next]
    change ((bypass stateLinked context.table context.nodes (context.home x.2) _ _).bind _) = _
    rw [run, Option.bind_some]
    simp only
    rw [free_eq alive, wrap, serial]
    rfl
  · refine ⟨?_, rfl⟩
    constructor
    · exact buckets
    · exact holds.mask
    · exact holds.power
    · rfl
    · change (l ++ r).length ≤ context.tableSize * 4
      omega
    · omega
    · have nodup := holds.ids
      rw [List.map_append, List.map_cons] at nodup
      rw [List.map_append]
      exact (List.nodup_cons.mp (List.nodup_middle.mp nodup)).2
    · intro y mem
      apply holds.nonzero
      rcases List.mem_append.mp mem with inL | inR
      · exact List.mem_append_left _ inL
      · exact List.mem_append_right l (List.mem_cons_of_mem x inR)
    · intro a
      change context.armed a = true ↔ _
      rw [holds.armed, List.mem_cons, not_or, mem_nodes_middle]
      constructor
      · rintro ⟨same | inside, apart, still⟩
        · exact absurd same apart
        · exact ⟨inside, still⟩
      · rintro ⟨inside, still⟩
        refine ⟨Or.inr inside, ?_, still⟩
        rintro rfl
        exact other inside
    · intro a mem
      rcases mem_nodes_middle.mp (holds.stops a (List.mem_cons_of_mem _ mem)) with rfl | inside
      · exact absurd mem differ
      · exact inside
    · exact serials_middle holds.serials

/-- Stopping the timer of an entry. -/
theorem stopTimer_holds (holds : HoldsStates context stopped xs) (mem : a ∈ xs.map Prod.fst) :
    HoldsStates (context.stopTimer a) (a :: stopped) xs where
  buckets := holds.buckets
  mask := holds.mask
  power := holds.power
  used := holds.used
  load := holds.load
  few := holds.few
  ids := holds.ids
  nonzero := holds.nonzero
  armed := by
    intro b
    change Function.update context.armed a false b = true ↔ _
    rw [List.mem_cons, not_or]
    rcases eq_or_ne b a with rfl | differ
    · rw [Function.update_self]
      exact iff_of_false Bool.false_ne_true fun both => both.2.1 rfl
    · rw [Function.update_of_ne differ, holds.armed, and_iff_right differ]
  stops := by
    intro b mem'
    rcases List.mem_cons.mp mem' with rfl | inside
    · exact mem
    · exact holds.stops b inside
  serials := holds.serials

/-- Starting the timer of an entry that is not stopped. -/
theorem startTimer_holds (holds : HoldsStates context stopped xs) (mem : a ∈ xs.map Prod.fst)
    (running : a ∉ stopped) :
    HoldsStates { context with armed := Function.update context.armed a true } stopped xs := by
  have same : Function.update context.armed a true = context.armed := by
    funext b
    rcases eq_or_ne b a with rfl | differ
    · rw [Function.update_self, (holds.armed b).mpr ⟨mem, running⟩]
    · rw [Function.update_of_ne differ]
  rw [same]
  exact holds

/-! ## Addition -/

/-- Below 2^30 buckets an expansion fits. -/
theorem expandIfNeeded_eq (holds : HoldsStates context stopped xs)
    (small : context.tableSize < 2 ^ 30) :
    ∃ context' xs', context.expandIfNeeded = some context' ∧ xs'.Perm xs ∧
      HoldsStates context' stopped xs' ∧ xs.length < context'.tableSize * 4 := by
  have fits : context.tableSize * 4 % 2 ^ 32 = context.tableSize * 4 :=
    Nat.mod_eq_of_lt (by omega)
  unfold StateTable.expandIfNeeded
  rw [fits]
  by_cases room : context.used < context.tableSize * 4
  · rw [if_pos room]
    exact ⟨context, xs, rfl, List.Perm.refl xs, holds, by rw [← holds.used]; exact room⟩
  · rw [if_neg room]
    rcases holds.power with ⟨k, most, size⟩
    have positive := holds.size_pos
    have load := holds.load
    have mask : (context.tableSize * 4 + (2 ^ 32 - 1)) % 2 ^ 32 = context.tableSize * 4 - 1 := by
      omega
    let home (entry : BitVec 32 × ℕ) : ℕ := entry.1.toNat &&& (context.tableSize * 4 - 1)
    have homes : ∀ x ∈ xs, home x.2 < context.tableSize * 4 := by
      intro x _
      change x.2.1.toNat &&& (context.tableSize * 4 - 1) < context.tableSize * 4
      have below : x.2.1.toNat &&& (context.tableSize * 4 - 1) ≤ context.tableSize * 4 - 1 :=
        Nat.and_le_right
      omega
    have stops : ∀ n : ℕ, (fun _ => false) n = true → n = 0 := nofun
    rcases holds.buckets.rehash homes stops (le_refl xs.length) with
      ⟨table, nodes, xs', run, perm, buckets⟩
    refine ⟨{ context with
      table
      tableSize := context.tableSize * 4
      tableMask := context.tableSize * 4 - 1
      nodes }, xs', ?_, perm, ?_, ?_⟩
    · simp only
      rw [mask, holds.used, run]
      rw [← holds.used]
      rfl
    · constructor
      · exact buckets
      · rfl
      · refine ⟨k + 1, ?_, ?_⟩
        · by_contra beyond
          have all : k = 12 := by omega
          rw [size, all] at small
          exact absurd small (by decide)
        · change context.tableSize * 4 = _
          rw [size, Nat.pow_succ, Nat.mul_assoc]
      · rw [perm.length_eq]
        exact holds.used
      · change xs'.length ≤ context.tableSize * 4 * 4
        rw [perm.length_eq]
        omega
      · rw [perm.length_eq]
        exact holds.few
      · exact (perm.map _).nodup_iff.mpr holds.ids
      · exact fun y mem => holds.nonzero y (perm.mem_iff.mp mem)
      · intro b
        rw [(perm.map Prod.fst).mem_iff]
        exact holds.armed b
      · intro b mem
        rw [(perm.map Prod.fst).mem_iff]
        exact holds.stops b mem
      · exact ((perm.map _).append_right _).trans holds.serials
    · change xs.length < context.tableSize * 4 * 4
      omega

/-- A new entry in its bucket. -/
theorem link_eq (holds : HoldsStates context stopped xs) (fresh : context.nodes a = none)
    (absent : ∀ x ∈ xs, x.2.1 ≠ id) (nonzero : id ≠ 0) (room : xs.length < context.tableSize * 4)
    (few : xs.length ≤ 2 ^ 30) (idStart : BitVec 32) :
    ∃ context', context.link a id idStart = some context' ∧
      HoldsStates context' stopped ((a, id, context.births) :: xs) ∧
      context'.idStart = idStart := by
  rcases holds.buckets.chains (id.toNat &&& context.tableMask) (holds.index_lt id) with
    ⟨first, pointer, _⟩
  have buckets : Buckets stateLinked
      (Function.update context.table (id.toNat &&& context.tableMask) (some (some a)))
      (context.nodes.alloc a ⟨id, context.births, first⟩) context.tableSize context.home
      ((a, id, context.births) :: xs) :=
    holds.buckets.push (x := (a, id, context.births)) fresh pointer rfl rfl (holds.index_lt id)
  have other : a ∉ xs.map Prod.fst := fun mem => holds.buckets.alive mem fresh
  have wrap : (context.used + 1) % 2 ^ 32 = xs.length + 1 := by
    rw [holds.used]
    omega
  refine ⟨{ context with
    table := Function.update context.table (id.toNat &&& context.tableMask) (some (some a))
    used := xs.length + 1
    idStart
    nodes := context.nodes.alloc a ⟨id, context.births, first⟩
    armed := Function.update context.armed a true
    births := context.births + 1 }, ?_, ?_⟩
  · unfold StateTable.link
    rw [pointer, wrap]
    rfl
  · refine ⟨?_, rfl⟩
    constructor
    · exact buckets
    · exact holds.mask
    · exact holds.power
    · rfl
    · exact room
    · exact Nat.succ_le_succ few
    · rw [List.map_cons]
      apply List.nodup_cons.mpr
      constructor
      · intro mem
        rcases List.mem_map.mp mem with ⟨y, among, same⟩
        exact absent y among same
      · exact holds.ids
    · rintro y (_ | ⟨_, mem⟩)
      · exact nonzero
      · exact holds.nonzero y mem
    · intro b
      change Function.update context.armed a true b = true ↔ _
      rw [List.map_cons, List.mem_cons]
      rcases eq_or_ne b a with rfl | differ
      · rw [Function.update_self]
        exact iff_of_true rfl ⟨Or.inl rfl, fun mem => other (holds.stops b mem)⟩
      · rw [Function.update_of_ne differ, holds.armed, or_iff_right differ]
    · exact fun b mem => List.mem_cons_of_mem _ (holds.stops b mem)
    · change (context.births :: (xs.map (fun x => x.2.2) ++ context.released.map Prod.fst)).Perm _
      rw [List.range_succ]
      exact (holds.serials.cons _).trans (List.perm_append_singleton _ _).symm

/-- What a call leaves: the entries whose timers were stopped are still there. -/
def Kept (stopped : List ρ) (xs xs' : List (StateItem ρ)) : Prop :=
  ∀ x ∈ xs, x.1 ∈ stopped → x ∈ xs'

/-- `nw_state_add` does what it does to the association. -/
theorem add_eq (holds : HoldsStates context stopped xs) {state : NwState ρ}
    (stands : Stands context xs state) (fresh : context.nodes a = none)
    (small : context.tableSize < 2 ^ 30) (id : BitVec 32) :
    ∃ context' xs', context.add a id = some (context', (nwStateAdd state id a).map fun _ => a) ∧
      HoldsStates context' stopped xs' ∧ (∀ x ∈ xs, x ∈ xs') ∧
      (id = 0 → ∃ y : StateItem ρ, y.1 = a ∧ xs'.Perm (y :: xs)) ∧
      Stands context' xs' (((nwStateAdd state id a).map Prod.snd).getD state) := by
  have loaded := holds.load
  rcases holds.power with ⟨k, most, size⟩
  have few : xs.length ≤ 2 ^ 30 := by
    have below : k ≤ 11 := by
      by_contra beyond
      have all : k = 12 := by omega
      rw [size, all] at small
      exact absurd small (by decide)
    have power : 4 ^ k ≤ 4 ^ 11 := Nat.pow_le_pow_right (Nat.zero_lt_succ 3) below
    omega
  have notFull : ¬ context.used = 2 ^ 32 - 1 := by
    rw [holds.used]
    omega
  have roomy : ¬ nwStateCount state = 2 ^ 32 - 1 := by
    rw [holds.count_stands stands]
    omega
  -- a new entry under an id that is not in use
  have enter (id idStart : BitVec 32) (nonzero : id ≠ 0) (absent : ∀ x ∈ xs, x.2.1 ≠ id) :
      ∃ context' xs', (context.expandIfNeeded.bind fun context =>
        (context.link a id idStart).map fun context => (context, some a)) =
          some (context', some a) ∧ HoldsStates context' stopped xs' ∧
        (∃ y : StateItem ρ, y.1 = a ∧ xs'.Perm (y :: xs)) ∧
        Stands context' xs' ⟨dictReplace state.table id a, idStart⟩ := by
    rcases holds.expandIfNeeded_eq small with ⟨context₁, xs₁, run, perm, holds₁, room⟩
    have fresh₁ : context₁.nodes a = none := by
      by_contra used
      exact holds.buckets.alive ((perm.map Prod.fst).mem_iff.mp (holds₁.buckets.live a used)) fresh
    rw [← perm.length_eq] at room few
    rcases holds₁.link_eq fresh₁ (fun x mem => absent x (perm.mem_iff.mp mem)) nonzero room few
      idStart with ⟨context₂, linked, holds₂, last⟩
    refine ⟨context₂, _, ?_, holds₂, ⟨_, rfl, perm.cons _⟩,
      stands_replace stands (perm.cons _) absent last⟩
    rw [run, Option.bind_some, linked]
    rfl
  unfold StateTable.add StateTable.newId
  by_cases zero : id = 0
  · subst zero
    rcases holds.availableId_stands stands (by omega) with ⟨id, found, found', nonzero, absent⟩
    rcases enter id id nonzero absent with ⟨context', xs', run, holds', ⟨y, here, perm⟩, stands'⟩
    have added : nwStateAdd state 0 a = some (id, ⟨dictReplace state.table id a, id⟩) := by
      unfold nwStateAdd
      rw [if_neg (fun both => both.1 rfl), if_neg roomy, if_neg (not_not_intro rfl), found']
      rfl
    rw [added]
    refine ⟨context', xs', ?_, holds',
      fun x mem => perm.mem_iff.mpr (List.mem_cons_of_mem y mem), fun _ => ⟨y, here, perm⟩, stands'⟩
    rw [if_neg (not_not_intro rfl), Option.bind_some]
    simp only
    rw [if_neg notFull, if_neg (not_not_intro rfl), found]
    exact run
  · rw [if_pos zero]
    rcases cases_id id xs with ⟨l, x, r, rfl, rfl⟩ | absent
    · have taken : nwStateGet state x.2.1 = some x.1 :=
        Option.some.inj ((holds.get_stands stands x.2.1).symm.trans holds.get_present)
      have refused : nwStateAdd state x.2.1 a = none := by
        unfold nwStateAdd
        rw [taken, if_pos ⟨zero, rfl⟩]
      rw [holds.get_present, refused]
      exact ⟨context, _, rfl, holds, fun _ mem => mem, fun none_ => absurd none_ zero, stands⟩
    · rcases enter id context.idStart zero absent with
        ⟨context', xs', run, holds', ⟨y, here, perm⟩, stands'⟩
      have unused : nwStateGet state id = none :=
        Option.some.inj ((holds.get_stands stands id).symm.trans (holds.get_absent absent))
      have added : nwStateAdd state id a =
          some (id, ⟨dictReplace state.table id a, context.idStart⟩) := by
        unfold nwStateAdd
        rw [unused, if_neg (fun both => Bool.false_ne_true both.2), if_neg roomy, if_pos zero,
          ← stands.idStart]
      rw [added]
      refine ⟨context', xs', ?_, holds',
        fun x mem => perm.mem_iff.mpr (List.mem_cons_of_mem y mem), fun _ => ⟨y, here, perm⟩,
        stands'⟩
      rw [holds.get_absent absent, Option.bind_some]
      simp only
      rw [if_neg notFull, if_pos zero]
      exact run

/-- From a table without buckets nothing is moved. -/
theorem moveBuckets_nowhere {index : BitVec 32 × ℕ → ℕ} {old new' : Heap ℕ (Option ρ)}
    {stop : ℕ → Bool} {nodes nodes' : Heap ρ (StateEntry ρ)} {fuel n i left : ℕ}
    (run : moveBuckets stateLinked index old stop fuel n i left (calloc 0) nodes =
      some (new', nodes')) : new' = calloc 0 := by
  induction n generalizing i left nodes with
  | zero =>
      cases run
      rfl
  | succ n ih =>
      unfold moveBuckets at run
      split at run
      · cases run
        rfl
      · rcases Option.bind_eq_some_iff.mp run with ⟨start, _, rest⟩
        rcases Option.bind_eq_some_iff.mp rest with ⟨⟨new₁, nodes₁, moved⟩, chain, rest'⟩
        cases start with
        | none =>
            unfold moveChain at chain
            cases chain
            exact ih rest'
        | some a =>
            -- the first node has no bucket to go to
            cases fuel with
            | zero => cases chain
            | succ fuel =>
                rcases Option.bind_eq_some_iff.mp chain with ⟨cell, _, inner⟩
                cases inner

/-- Above 2^30 buckets the size wraps around to 0, and the new entry has no bucket. -/
theorem add_overflow (holds : HoldsStates context stopped xs)
    (large : ¬ context.tableSize < 2 ^ 30) : context.add a 0 = none := by
  rcases holds.power with ⟨k, most, size⟩
  have power : 4 ^ k ≤ 4 ^ 12 := Nat.pow_le_pow_right (Nat.zero_lt_succ 3) most
  have all : context.tableSize = 2 ^ 30 := by omega
  have few := holds.few
  have notFull : ¬ context.used = 2 ^ 32 - 1 := by
    rw [holds.used]
    omega
  rcases holds.availableId_ends (by omega) with ⟨id, found, _⟩
  unfold StateTable.add StateTable.newId
  rw [if_neg (not_not_intro rfl), Option.bind_some]
  simp only
  rw [if_neg notFull, if_neg (not_not_intro rfl), found, Option.map_some, Option.bind_some]
  apply Option.bind_eq_none_iff.mpr
  intro context' run
  unfold StateTable.expandIfNeeded at run
  have wraps : 2 ^ 30 * 4 % 2 ^ 32 = 0 := rfl
  rw [all, wraps, if_neg (Nat.not_lt_zero _)] at run
  rcases Option.map_eq_some_iff.mp run with ⟨⟨table, nodes⟩, moved, rfl⟩
  unfold StateTable.link
  rw [moveBuckets_nowhere moved]
  rfl

/-! ## Calls -/

theorem mod_eq (holds : HoldsStates context stopped xs) {id : BitVec 32}
    (other : ∀ x ∈ xs, x.1 ∈ stopped → x.2.1 ≠ id) :
    ∃ context' result, context.mod id = some (context', result) ∧
      HoldsStates context' stopped xs ∧ context'.idStart = context.idStart := by
  unfold StateTable.mod
  rcases cases_id id xs with ⟨l, x, r, rfl, rfl⟩ | absent
  · have member : x ∈ l ++ x :: r := List.mem_append_right l List.mem_cons_self
    rw [holds.get_present]
    exact ⟨_, 0, rfl, holds.startTimer_holds (List.mem_map_of_mem member)
      fun mem => other x member mem rfl, rfl⟩
  · rw [holds.get_absent absent]
    exact ⟨context, -1, rfl, holds, rfl⟩

theorem del_eq (holds : HoldsStates context stopped xs) {state : NwState ρ}
    (stands : Stands context xs state) {id : BitVec 32}
    (other : ∀ x ∈ xs, x.1 ∈ stopped → x.2.1 ≠ id) :
    ∃ context' result xs', context.del id = some (context', result) ∧
      HoldsStates context' stopped xs' ∧ Kept stopped xs xs' ∧
      Stands context' xs' (nwStateDel state id) := by
  unfold StateTable.del
  rcases cases_id id xs with ⟨l, x, r, rfl, rfl⟩ | absent
  · have member : x ∈ l ++ x :: r := List.mem_append_right l List.mem_cons_self
    have running : x.1 ∉ stopped := fun mem => other x member mem rfl
    rcases (holds.stopTimer_holds (List.mem_map_of_mem member)).stateRemove_eq running .del with
      ⟨context', removed, holds', last⟩
    rw [holds.get_present, Option.bind_some]
    simp only
    rw [removed]
    refine ⟨context', 0, l ++ r, rfl, holds', ?_, stands_delete stands holds.apart last⟩
    intro y mem mem'
    rcases List.mem_append.mp mem with inL | inRest
    · exact List.mem_append_left r inL
    · rcases List.mem_cons.mp inRest with rfl | inR
      · exact absurd mem' running
      · exact List.mem_append_right l inR
  · rw [holds.get_absent absent]
    refine ⟨context, -1, xs, rfl, holds, fun _ mem _ => mem, ?_⟩
    have gone : dictFind state.table id = none :=
      (Option.some.inj ((holds.get_stands stands id).symm.trans (holds.get_absent absent)))
    have same : nwStateDel state id = state := by
      unfold nwStateDel
      rw [dictDelete_of_absent gone]
    rw [same]
    exact stands

end HoldsStates

end ViabtcServer.Network
