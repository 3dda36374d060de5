import ViabtcServer.Container.DictIteration

/-!
# Runs of dictionary operations

All calls answer as on a finite map from keys to values, unless `dict_expand` is
asked for more than 2^31 buckets: then it does not return.
-/

namespace ViabtcServer.Container

open Memory

variable {ρ K V κ : Type} [DecidableEq κ] {name : K → κ} {dt : DictT ρ K V}
  {xs xs' l r : List (DictItem ρ K V)} {x : DictItem ρ K V} {d : Dict κ V} {key : K} {val : V}

/-! ## The finite map -/

/-- The map has the values of these entries. -/
def Agrees (name : K → κ) (d : Dict κ V) (xs : List (DictItem ρ K V)) : Prop :=
  ∀ n v, dictFind d n = some v ↔ ∃ x ∈ xs, name x.2.1 = n ∧ x.2.2.1 = v

namespace Agrees

theorem find_mem (agrees : Agrees name d xs) (mem : x ∈ xs) :
    dictFind d (name x.2.1) = some x.2.2.1 :=
  (agrees _ _).mpr ⟨x, mem, rfl, rfl⟩

theorem find_none (agrees : Agrees name d xs) (absent : ∀ x ∈ xs, name x.2.1 ≠ name key) :
    dictFind d (name key) = none := by
  apply Option.eq_none_iff_forall_ne_some.mpr
  intro v found
  rcases (agrees _ _).mp found with ⟨x, mem, same, _⟩
  exact absent x mem same

theorem perm (agrees : Agrees name d xs) (perm : xs'.Perm xs) : Agrees name d xs' := by
  intro n v
  rw [agrees n v]
  constructor
  · rintro ⟨x, mem, both⟩
    exact ⟨x, perm.mem_iff.mpr mem, both⟩
  · rintro ⟨x, mem, both⟩
    exact ⟨x, perm.mem_iff.mp mem, both⟩

/-- The entries with one key changed, and nothing else. -/
theorem replace (agrees : Agrees name d xs)
    (others : ∀ x : DictItem ρ K V, name x.2.1 ≠ name key → (x ∈ xs' ↔ x ∈ xs))
    (there : ∃ x ∈ xs', name x.2.1 = name key)
    (only : ∀ x ∈ xs', name x.2.1 = name key → x.2.2.1 = val) :
    Agrees name (dictReplace d (name key) val) xs' := by
  intro n v
  by_cases same : n = name key
  · subst same
    rw [dictFind_replace]
    constructor
    · rintro ⟨rfl⟩
      rcases there with ⟨x, mem, equal⟩
      exact ⟨x, mem, equal, only x mem equal⟩
    · rintro ⟨x, mem, equal, rfl⟩
      rw [only x mem equal]
  · rw [dictFind_replace_ne same, agrees n v]
    constructor
    · rintro ⟨x, mem, rfl, value⟩
      exact ⟨x, (others x same).mpr mem, rfl, value⟩
    · rintro ⟨x, mem, rfl, value⟩
      exact ⟨x, (others x same).mp mem, rfl, value⟩

theorem delete (agrees : Agrees name d xs)
    (others : ∀ x : DictItem ρ K V, name x.2.1 ≠ name key → (x ∈ xs' ↔ x ∈ xs))
    (gone : ∀ x ∈ xs', name x.2.1 ≠ name key) : Agrees name (dictDelete d (name key)) xs' := by
  intro n v
  by_cases same : n = name key
  · subst same
    rw [dictFind_delete]
    apply iff_of_false (Option.some_ne_none v).symm
    rintro ⟨x, mem, equal, _⟩
    exact gone x mem equal
  · rw [dictFind_delete_ne same, agrees n v]
    constructor
    · rintro ⟨x, mem, rfl, value⟩
      exact ⟨x, (others x same).mpr mem, rfl, value⟩
    · rintro ⟨x, mem, rfl, value⟩
      exact ⟨x, (others x same).mp mem, rfl, value⟩

/-- The map is the entries without their addresses. -/
theorem entries_perm (agrees : Agrees name d xs) (keys : (xs.map fun x => name x.2.1).Nodup) :
    d.entries.Perm (xs.map fun x => ⟨name x.2.1, x.2.2.1⟩) := by
  apply (List.perm_ext_iff_of_nodup d.nodupKeys.nodup _).mpr
  · rintro ⟨n, v⟩
    rw [mem_entries_iff, agrees n v, List.mem_map]
    constructor
    · rintro ⟨x, mem, rfl, rfl⟩
      exact ⟨x, mem, rfl⟩
    · rintro ⟨x, mem, same⟩
      cases same
      exact ⟨x, mem, rfl, rfl⟩
  · apply List.Nodup.of_map Sigma.fst
    rw [List.map_map]
    exact keys

theorem length_eq (agrees : Agrees name d xs) (keys : (xs.map fun x => name x.2.1).Nodup) :
    d.entries.length = xs.length := by
  rw [(agrees.entries_perm keys).length_eq, List.length_map]

end Agrees

/-! ## Operations -/

/-- An operation, with the address of the entry it allocates. -/
inductive DictOp (ρ K V : Type)
  | add (entry : ρ) (key : K) (val : V)
  | replace (entry : ρ) (key : K) (val : V)
  | find (key : K)
  | delete (key : K)
  | expand (size : ℕ)
  | clear

/-- What a call returns: an entry, read as its value, or a code. -/
inductive DictAnswer (V : Type)
  | entry (val : Option V)
  | code (result : ℤ)
  | done

/-- The value of an entry that was returned, if it is not `NULL`. -/
def DictT.valueAt (dt : DictT ρ K V) (found : Option ρ) : Option (Option V) :=
  match found with
  | none => some none
  | some entry => (dt.nodes entry).map fun cell => some cell.val

namespace DictOp

/-- What an operation does to the dictionary, and what it answers. -/
def run [DecidableEq ρ] (op : DictOp ρ K V) (dt : DictT ρ K V) :
    Option (DictT ρ K V × DictAnswer V) :=
  match op with
  | add entry key val => (dt.add entry key val).bind fun (dt, added) =>
      (dt.valueAt added).map fun val => (dt, .entry val)
  | replace entry key val => (dt.replace entry key val).map fun (dt, result) => (dt, .code result)
  | find key => (dt.find key).bind fun (dt, found) =>
      (dt.valueAt found).map fun val => (dt, .entry val)
  | delete key => (dt.delete key).map fun (dt, result) => (dt, .code result)
  | expand size => (dt.expand size).map fun dt => (dt, .code 0)
  | clear => dt.clear.map fun dt => (dt, .done)

/-- What it denotes. -/
def denote (name : K → κ) (op : DictOp ρ K V) (d : Dict κ V) : Dict κ V × DictAnswer V :=
  match op with
  | add _ key val =>
      match dictAdd d (name key) val with
      | none => (d, .entry none)
      | some d => (d, .entry (some val))
  | replace _ key val => (dictReplace d (name key) val,
      .code (if (dictFind d (name key)).isSome then 0 else 1))
  | find key => (d, .entry (dictFind d (name key)))
  | delete key => (dictDelete d (name key),
      .code (if (dictFind d (name key)).isSome then 1 else 0))
  | expand _ => (d, .code 0)
  | clear => (∅, .done)

/-- The address of a new entry is not in use. -/
def Fresh (op : DictOp ρ K V) (dt : DictT ρ K V) : Prop :=
  match op with
  | add entry _ _ => dt.nodes entry = none
  | replace entry _ _ => dt.nodes entry = none
  | _ => True

/-- An expansion asks for at most 2^31 buckets. -/
def InRange (op : DictOp ρ K V) : Prop :=
  match op with
  | expand size => size ≤ 2 ^ 31
  | _ => True

end DictOp

section Operations

omit [DecidableEq κ]

theorem valueAt_mem (holds : HoldsEntries name dt xs) (mem : x ∈ xs) :
    dt.valueAt (some x.1) = some (some x.2.2.1) := by
  rcases exists_cell (holds.buckets.cells x mem) with ⟨cell, found, data⟩
  have value : cell.val = x.2.2.1 := congrArg (fun c : K × V × ℕ => c.2.1) data
  unfold DictT.valueAt
  simp only
  rw [found, Option.map_some, value]

/-- Entries with other keys are where they were when one is added. -/
theorem mem_cons_perm {y : DictItem ρ K V} (perm : xs'.Perm xs) (other : x ≠ y) :
    x ∈ y :: xs' ↔ x ∈ xs := by
  rw [List.mem_cons, perm.mem_iff, or_iff_right other]

theorem mem_middle {y : DictItem ρ K V} (other : x ≠ y) : x ∈ l ++ y :: r ↔ x ∈ l ++ r := by
  rw [List.mem_append, List.mem_cons, or_iff_right other, List.mem_append]

end Operations

variable [DecidableEq ρ]

/-- One operation. -/
theorem DictOp.run_holds (op : DictOp ρ K V) (holds : HoldsEntries name dt xs)
    (agrees : Agrees name d xs) (fresh : op.Fresh dt) (range : op.InRange)
    (few : xs.length + 1 < 2 ^ 32) :
    ∃ dt' xs', op.run dt = some (dt', (op.denote name d).2) ∧ HoldsEntries name dt' xs' ∧
      Agrees name (op.denote name d).1 xs' := by
  -- a new entry
  have added {key : K} {val : V} {entry : ρ} {id : ℕ} {xs' : List (DictItem ρ K V)}
      (absent : ∀ x ∈ xs, name x.2.1 ≠ name key) (perm : xs'.Perm xs) :
      Agrees name (dictReplace d (name key) val) ((entry, key, val, id) :: xs') := by
    apply agrees.replace
    · intro x other
      exact mem_cons_perm perm (by rintro rfl; exact other rfl)
    · exact ⟨_, List.mem_cons_self, rfl⟩
    · rintro x (_ | ⟨_, mem⟩) same
      · rfl
      · exact absurd same (absent x (perm.mem_iff.mp mem))
  cases op with
  | add entry key val =>
      unfold run denote
      simp only
      rcases HoldsEntries.cases_key name key xs with ⟨l, x, r, rfl, same⟩ | absent
      · have found := agrees.find_mem (List.mem_append_right l (List.mem_cons_self (a := x)))
        rw [same] at found
        rw [holds.add_present same, dictAdd_of_present found]
        exact ⟨dt, _, rfl, holds, agrees⟩
      · rcases holds.add_absent val absent fresh few with ⟨dt', xs', id, run, perm, holds'⟩
        rw [run, dictAdd_of_fresh (agrees.find_none absent), Option.bind_some]
        simp only
        have value : dt'.valueAt (some entry) = some (some val) :=
          valueAt_mem holds' List.mem_cons_self
        rw [value]
        exact ⟨dt', _, rfl, holds', added absent perm⟩
  | replace entry key val =>
      unfold run denote
      simp only
      rcases HoldsEntries.cases_key name key xs with ⟨l, x, r, rfl, same⟩ | absent
      · have found := agrees.find_mem (List.mem_append_right l (List.mem_cons_self (a := x)))
        rw [same] at found
        rcases holds.replace_present same with ⟨nodes, run, holds'⟩
        rw [run, found, Option.isSome_some, if_pos rfl]
        refine ⟨_, _, rfl, holds', ?_⟩
        apply agrees.replace
        · intro y other
          rw [mem_middle (by rintro rfl; exact other same),
            mem_middle (by rintro rfl; exact other same)]
        · exact ⟨_, List.mem_append_right l List.mem_cons_self, same⟩
        · intro y mem equal
          rcases List.mem_append.mp mem with inL | inRest
          · exact absurd equal (holds.apart same y (List.mem_append_left r inL))
          · rcases List.mem_cons.mp inRest with rfl | inR
            · rfl
            · exact absurd equal (holds.apart same y (List.mem_append_right l inR))
      · rcases holds.replace_absent absent fresh few with ⟨dt', xs', id, run, perm, holds'⟩
        rw [run, agrees.find_none absent]
        exact ⟨dt', _, rfl, holds', added absent perm⟩
  | find key =>
      unfold run denote
      simp only
      rcases HoldsEntries.cases_key name key xs with ⟨l, x, r, rfl, same⟩ | absent
      · have member := List.mem_append_right l (List.mem_cons_self (a := x) (l := r))
        have found := agrees.find_mem member
        rw [same] at found
        rw [holds.find_present same, Option.bind_some, found]
        simp only
        rw [valueAt_mem holds member]
        exact ⟨dt, _, rfl, holds, agrees⟩
      · rw [holds.find_absent absent, agrees.find_none absent]
        exact ⟨dt, xs, rfl, holds, agrees⟩
  | delete key =>
      unfold run denote
      simp only
      rcases HoldsEntries.cases_key name key xs with ⟨l, x, r, rfl, same⟩ | absent
      · have found := agrees.find_mem (List.mem_append_right l (List.mem_cons_self (a := x)))
        rw [same] at found
        rcases holds.delete_present same with ⟨table, nodes, run, holds'⟩
        rw [run, found, Option.isSome_some, if_pos rfl]
        refine ⟨_, _, rfl, holds', agrees.delete ?_ (holds.apart same)⟩
        intro y other
        rw [mem_middle (by rintro rfl; exact other same)]
      · rw [holds.delete_absent absent, agrees.find_none absent,
          dictDelete_of_absent (agrees.find_none absent)]
        exact ⟨dt, xs, rfl, holds, agrees⟩
  | expand size =>
      rcases holds.expand_eq range with ⟨dt', xs', run, _, perm, holds'⟩
      unfold DictOp.run denote
      simp only
      rw [run]
      exact ⟨dt', xs', rfl, holds', agrees.perm perm⟩
  | clear =>
      rcases holds.clear_eq with ⟨dt', run, holds'⟩
      unfold DictOp.run denote
      simp only
      rw [run]
      refine ⟨dt', [], rfl, holds', ?_⟩
      intro n v
      rw [dictFind_empty]
      apply iff_of_false (Option.some_ne_none v).symm
      rintro ⟨x, mem, _⟩
      exact absurd mem List.not_mem_nil

/-! ## Sequences of operations -/

/-- A sequence of operations, and what they answer. -/
def dictRuns : List (DictOp ρ K V) → DictT ρ K V → Option (DictT ρ K V × List (DictAnswer V))
  | [], dt => some (dt, [])
  | op :: ops, dt => (op.run dt).bind fun (dt, answer) =>
      (dictRuns ops dt).map fun (dt, answers) => (dt, answer :: answers)

omit [DecidableEq ρ] in
/-- What it denotes. -/
def dictDenotes (name : K → κ) :
    List (DictOp ρ K V) → Dict κ V → Dict κ V × List (DictAnswer V)
  | [], d => (d, [])
  | op :: ops, d =>
      let rest := dictDenotes name ops (op.denote name d).1
      (rest.1, (op.denote name d).2 :: rest.2)

/-- New addresses are not in use, and there are fewer than 2^30 entries. -/
def ValidDicts (name : K → κ) : List (DictOp ρ K V) → DictT ρ K V → Dict κ V → Prop
  | [], _, _ => True
  | op :: ops, dt, d => op.Fresh dt ∧ (op.denote name d).1.entries.length < 2 ^ 30 ∧
      ∀ dt' answer, op.run dt = some (dt', answer) →
        ValidDicts name ops dt' (op.denote name d).1

theorem dictRuns_holds {ops : List (DictOp ρ K V)} (holds : HoldsEntries name dt xs)
    (agrees : Agrees name d xs) (few : d.entries.length < 2 ^ 30)
    (valid : ValidDicts name ops dt d) (range : ∀ op ∈ ops, op.InRange) :
    ∃ dt' xs', dictRuns ops dt = some (dt', (dictDenotes name ops d).2) ∧
      HoldsEntries name dt' xs' ∧ Agrees name (dictDenotes name ops d).1 xs' := by
  induction ops generalizing dt xs d with
  | nil => exact ⟨dt, xs, rfl, holds, agrees⟩
  | cons op ops ih =>
      rcases valid with ⟨fresh, few', valid'⟩
      have room : xs.length + 1 < 2 ^ 32 := by
        rw [← agrees.length_eq holds.keys]
        omega
      rcases op.run_holds holds agrees fresh (range op List.mem_cons_self) room with
        ⟨dt', xs', run, holds', agrees'⟩
      rcases ih holds' agrees' few' (valid' dt' _ run)
        (fun other mem => range other (List.mem_cons_of_mem op mem)) with
        ⟨dt'', xs'', runs, holds'', agrees''⟩
      refine ⟨dt'', xs'', ?_, holds'', agrees''⟩
      unfold dictRuns
      rw [run, Option.bind_some]
      simp only
      rw [runs]
      rfl

/-- Only expansions in range return. -/
theorem inRange_of_run {op : DictOp ρ K V} {result : DictT ρ K V × DictAnswer V}
    (run : op.run dt = some result) : op.InRange := by
  cases op with
  | expand size =>
      by_contra large
      have never := nextPower_none (Nat.lt_of_not_le large)
      unfold DictOp.run DictT.expand at run
      simp only at run
      rw [never] at run
      cases run
  | add => trivial
  | replace => trivial
  | find => trivial
  | delete => trivial
  | clear => trivial

theorem inRange_of_runs {ops : List (DictOp ρ K V)} {result : DictT ρ K V × List (DictAnswer V)}
    (runs : dictRuns ops dt = some result) : ∀ op ∈ ops, op.InRange := by
  induction ops generalizing dt result with
  | nil => exact fun op mem => absurd mem List.not_mem_nil
  | cons op ops ih =>
      unfold dictRuns at runs
      rcases Option.bind_eq_some_iff.mp runs with ⟨⟨dt', answer⟩, run, rest⟩
      rcases Option.map_eq_some_iff.mp rest with ⟨result', runs', _⟩
      rintro other (_ | ⟨_, mem⟩)
      · exact inRange_of_run run
      · exact ih runs' other mem

/-! ## Refinement -/

/-- The dictionary is a table of these entries, and they are the finite map. -/
structure RefinesMap (name : K → κ) (dt : DictT ρ K V) (d : Dict κ V)
    (xs : List (DictItem ρ K V)) : Prop where
  content : d.entries.Perm (xs.map fun x => ⟨name x.2.1, x.2.2.1⟩)
  keys : (xs.map fun x => name x.2.1).Nodup
  used : dt.used = xs.length
  cells : ∀ x ∈ xs, dt.nodes x.1 ≠ none ∧ fieldOf dictLinked.data dt.nodes x.1 = some x.2
  homes : ∀ x ∈ xs, dt.home x.2 < dt.size
  chains : ∀ i < dt.size, ∃ start, dt.table i = some start ∧
    Chain (fieldOf DictEntry.next dt.nodes) start (bucket dt.home i xs) none
  expanded : ∀ size ≤ 2 ^ 31, ∃ dt' xs', dt.expand size = some dt' ∧ size ≤ dt'.size ∧
    xs'.Perm xs ∧ HoldsEntries name dt' xs'
  forced : ∃ dt' xs', dt.expandIfNeeded = some dt' ∧ xs'.Perm xs ∧ HoldsEntries name dt' xs'
  order : (entriesOf dt xs).Perm (xs.map Prod.fst)
  swept : ∀ chosen : List ρ → List ρ,
    Iterator.Allowed (fun xs a => a ∈ xs.map Prod.fst) (without Prod.fst) chosen []
      (entriesOf dt xs) xs →
    ∃ dt', dictIterator.sweep chosen (dt.used + 1) [] dt dictGetIterator =
      some (entriesOf dt xs, dt') ∧ HoldsEntries name dt'
        (Iterator.remains (without Prod.fst) chosen [] (entriesOf dt xs) xs)

theorem HoldsEntries.refines (holds : HoldsEntries name dt xs) (agrees : Agrees name d xs) :
    RefinesMap name dt d xs where
  content := agrees.entries_perm holds.keys
  keys := holds.keys
  used := holds.used
  cells := fun x mem =>
    ⟨holds.buckets.alive (List.mem_map_of_mem mem), holds.buckets.cells x mem⟩
  homes := holds.buckets.homes
  chains := holds.buckets.chains
  expanded := fun _ small => holds.expand_eq small
  forced := holds.expandIfNeeded_eq
  order := holds.entriesOf_perm
  swept := fun _ allowed => holds.sweep allowed

/-- A dictionary that is created and used answers as a finite map and refines it exactly when it is
never asked for more than 2^31 buckets. -/
theorem dict_refines_iff {type : DictTypes K} (names : type.Names name) (initSize : ℕ)
    (ops : List (DictOp ρ K V))
    (valid : ∀ dt, DictT.create type initSize = some dt → ValidDicts name ops dt ∅) :
    (∃ dt₀ dt xs, DictT.create type initSize = some dt₀ ∧
      dictRuns ops dt₀ = some (dt, (dictDenotes name ops ∅).2) ∧
      RefinesMap name dt (dictDenotes name ops ∅).1 xs) ↔
    initSize ≤ 2 ^ 31 ∧ ∀ op ∈ ops, op.InRange := by
  constructor
  · rintro ⟨dt₀, dt, xs, created, runs, _⟩
    refine ⟨?_, inRange_of_runs runs⟩
    by_contra large
    unfold DictT.create at created
    rw [nextPower_none (Nat.lt_of_not_le large)] at created
    cases created
  · rintro ⟨small, range⟩
    rcases HoldsEntries.create_holds (ρ := ρ) (V := V) names small with ⟨dt₀, created, holds⟩
    have agrees : Agrees name (∅ : Dict κ V) ([] : List (DictItem ρ K V)) := by
      intro n v
      rw [dictFind_empty]
      apply iff_of_false (Option.some_ne_none v).symm
      rintro ⟨x, mem, _⟩
      exact absurd mem List.not_mem_nil
    rcases dictRuns_holds holds agrees (Nat.two_pow_pos 30) (valid dt₀ created) range with
      ⟨dt, xs, runs, holds', agrees'⟩
    exact ⟨dt₀, dt, xs, created, runs, holds'.refines agrees'⟩

/-- Natural numbers as keys that all have one hash. -/
def oneHash : DictTypes ℕ where
  hashFunction := fun _ => 7
  keyCompare := fun key key' => (key : ℤ) - key'

theorem oneHash_names : oneHash.Names fun key => key where
  compare_iff := by
    intro key key'
    change (key : ℤ) - key' = 0 ↔ key = key'
    omega
  hash_eq := fun _ _ _ => rfl

/-- A key is added, found after an expansion, and deleted. -/
theorem dict_refines_small :
    (∃ dt₀ dt xs, DictT.create (ρ := ℕ) oneHash 4 = some dt₀ ∧
      dictRuns [.add 1 5 'a', .expand 8, .find 5, .delete 5] dt₀ =
        some (dt, [.entry (some 'a'), .code 0, .entry (some 'a'), .code 1]) ∧
      RefinesMap (fun key => key) dt ∅ xs) ↔
    4 ≤ 2 ^ 31 ∧ ∀ op ∈ [DictOp.add 1 5 'a', .expand 8, .find 5, .delete 5], op.InRange := by
  apply dict_refines_iff oneHash_names
  intro dt created
  rcases Option.map_eq_some_iff.mp created with ⟨size, _, rfl⟩
  refine ⟨rfl, by decide, fun _ _ _ => ⟨trivial, by decide, fun _ _ _ => ⟨trivial, by decide,
    fun _ _ _ => ⟨trivial, by decide, fun _ _ _ => trivial⟩⟩⟩⟩

/-- Asked for one bucket more, `dict_expand` tries sizes without end. -/
theorem dict_expand_never_returns : ∃ dt : DictT ℕ ℕ Char, DictT.create oneHash 4 = some dt ∧
    dt.size ≤ 2 ^ 31 + 1 ∧ ValidDicts (fun key => key) [.expand (2 ^ 31 + 1)] dt ∅ ∧
    dictRuns [.expand (2 ^ 31 + 1)] dt = none ∧
    ∀ fuel, nextPowerLoop (2 ^ 31 + 1) fuel 4 = none := by
  have large : 2 ^ 31 < 2 ^ 31 + 1 := Nat.lt_succ_self _
  refine ⟨_, rfl, by decide, ⟨trivial, Nat.two_pow_pos 30, fun _ _ _ => trivial⟩, ?_,
    fun fuel => nextPowerLoop_none large fuel (Or.inr ⟨2, by omega, rfl⟩)⟩
  unfold dictRuns DictOp.run DictT.expand
  simp only
  rw [nextPower_none large]
  rfl

end ViabtcServer.Container
