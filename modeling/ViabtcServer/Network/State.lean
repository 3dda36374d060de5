import Mathlib.Data.List.Perm.Subperm
import ViabtcServer.Container.Dict

/-!
# Requests that wait

`nw_state`: entries under sequence numbers of 32 bits, which are given out one after
the other. Neither 0 nor a number in use is given out.
-/

namespace ViabtcServer.Network

open Container

variable {α : Type}

/-- `nw_state`; the hash table stands as what it answers. -/
structure NwState (α : Type) where
  table : Dict (BitVec 32) α
  idStart : BitVec 32

/-- `nw_state_create`. -/
def NwState.empty : NwState α := ⟨∅, 0⟩

/-- `nw_state_get`. -/
def nwStateGet (context : NwState α) (id : BitVec 32) : Option α :=
  dictFind context.table id

/-- `nw_state_count`. -/
def nwStateCount (context : NwState α) : ℕ :=
  context.table.entries.length

/-- The next number; 0 is left out. -/
def nextId (idStart : BitVec 32) : BitVec 32 :=
  if idStart + 1 = 0 then idStart + 1 + 1 else idStart + 1

/-- The loop of `get_available_id`, at most `fuel` times. -/
def availableId (table : Dict (BitVec 32) α) : ℕ → BitVec 32 → Option (BitVec 32)
  | 0, _ => none
  | fuel + 1, idStart =>
      match dictFind table (nextId idStart) with
      | none => some (nextId idStart)
      | some _ => availableId table fuel (nextId idStart)

/-- `get_available_id`. -/
def getAvailableId (context : NwState α) : Option (BitVec 32) :=
  availableId context.table (2 ^ 32) context.idStart

/-- `nw_state_add`, with what the caller puts in the entry. -/
def nwStateAdd (context : NwState α) (id : BitVec 32) (data : α) :
    Option (BitVec 32 × NwState α) :=
  if id ≠ 0 ∧ (nwStateGet context id).isSome then none
  else if nwStateCount context = 2 ^ 32 - 1 then none
  else if id ≠ 0 then
    some (id, { context with table := dictReplace context.table id data })
  else
    (getAvailableId context).map fun id =>
      (id, ⟨dictReplace context.table id data, id⟩)

/-- `nw_state_del`; `on_timeout` removes its entry in the same way. -/
def nwStateDel (context : NwState α) (id : BitVec 32) : NwState α :=
  { context with table := dictDelete context.table id }

/-! ## Numbers -/

theorem nextId_ne_zero (idStart : BitVec 32) : nextId idStart ≠ 0 := by
  unfold nextId
  split
  · rename_i zero
    rw [zero]
    decide
  · assumption

/-- The number given out is not 0 and not in use. -/
theorem availableId_some {table : Dict (BitVec 32) α} {fuel : ℕ} {idStart id : BitVec 32}
    (found : availableId table fuel idStart = some id) : id ≠ 0 ∧ dictFind table id = none := by
  induction fuel generalizing idStart with
  | zero => cases found
  | succ fuel ih =>
      unfold availableId at found
      split at found
      · cases found
        exact ⟨nextId_ne_zero idStart, by assumption⟩
      · exact ih found

theorem add_ofNat_succ (idStart : BitVec 32) (i : ℕ) :
    idStart + BitVec.ofNat 32 (i + 1) = idStart + 1 + BitVec.ofNat 32 i := by
  rw [BitVec.ofNat_add, BitVec.add_comm (BitVec.ofNat 32 i), ← BitVec.add_assoc]
  rfl

/-- When the loop finds nothing, all numbers it passed are in use. -/
theorem availableId_none {table : Dict (BitVec 32) α} {fuel : ℕ} {idStart : BitVec 32}
    (nothing : availableId table fuel idStart = none) {i : ℕ} (positive : 1 ≤ i)
    (passed : i ≤ fuel) (nonzero : idStart + BitVec.ofNat 32 i ≠ 0) :
    (dictFind table (idStart + BitVec.ofNat 32 i)).isSome := by
  induction fuel generalizing idStart i with
  | zero => omega
  | succ fuel ih =>
      unfold availableId at nothing
      split at nothing
      · cases nothing
      rename_i used
      obtain ⟨i, rfl⟩ : ∃ j, i = j + 1 := ⟨i - 1, by omega⟩
      rw [add_ofNat_succ] at nonzero ⊢
      by_cases zero : idStart + 1 = 0
      · -- 0 is left out, so two are passed at once
        have next : nextId idStart = idStart + 1 + 1 := if_pos zero
        rw [next] at nothing used
        rcases i with _ | _ | i
        · exact absurd ((BitVec.add_zero _).trans zero) nonzero
        · exact Option.isSome_iff_exists.mpr ⟨_, used⟩
        · rw [add_ofNat_succ] at nonzero ⊢
          exact ih nothing (by omega) (by omega) nonzero
      · have next : nextId idStart = idStart + 1 := if_neg zero
        rw [next] at nothing used
        rcases i with _ | i
        · change (dictFind table (idStart + 1 + 0#32)).isSome
          rw [BitVec.add_zero]
          exact Option.isSome_iff_exists.mpr ⟨_, used⟩
        · exact ih nothing (by omega) (by omega) nonzero

/-- A table with all numbers but 0 is full. -/
theorem full_of_all {table : Dict (BitVec 32) α}
    (all : ∀ id ≠ 0, (dictFind table id).isSome) : 2 ^ 32 - 1 ≤ table.entries.length := by
  let ids : List (BitVec 32) :=
    (List.range (2 ^ 32 - 1)).map fun i => BitVec.ofNat 32 (i + 1)
  have nodup : ids.Nodup := by
    apply List.Nodup.map_on _ List.nodup_range
    intro i mem j mem' same
    rw [List.mem_range] at mem mem'
    have value := congrArg BitVec.toNat same
    rw [BitVec.toNat_ofNat, BitVec.toNat_ofNat] at value
    omega
  have inside : ids ⊆ table.keys := by
    intro id mem
    obtain ⟨i, small, rfl⟩ := List.mem_map.mp mem
    rw [List.mem_range] at small
    have nonzero : BitVec.ofNat 32 (i + 1) ≠ 0 := by
      intro zero
      have value := congrArg BitVec.toNat zero
      rw [BitVec.toNat_ofNat] at value
      change _ = 0 at value
      omega
    exact AList.mem_keys.mp (AList.lookup_isSome.mp (all _ nonzero))
  calc
    2 ^ 32 - 1 = ids.length := by rw [List.length_map, List.length_range]
    _ ≤ table.keys.length := (nodup.subperm inside).length_le
    _ = table.entries.length := List.length_map _

/-- As long as there is room, a number is found. -/
theorem getAvailableId_isSome {context : NwState α} (room : nwStateCount context < 2 ^ 32 - 1) :
    (getAvailableId context).isSome := by
  by_contra nothing
  rw [Option.not_isSome_iff_eq_none] at nothing
  refine absurd (full_of_all fun id nonzero => ?_) (Nat.not_le.mpr room)
  -- the loop passes `id` on its way around
  have reach (i : ℕ) (eq : context.idStart + BitVec.ofNat 32 i = id) (positive : 1 ≤ i)
      (passed : i ≤ 2 ^ 32) : (dictFind context.table id).isSome := by
    rw [← eq] at nonzero ⊢
    exact availableId_none nothing positive passed nonzero
  have bound := (id - context.idStart).isLt
  by_cases zero : (id - context.idStart).toNat = 0
  · apply reach (2 ^ 32) _ (by omega) (Nat.le_refl _)
    have back := BitVec.sub_add_cancel id context.idStart
    have none_ : id - context.idStart = 0#32 := BitVec.eq_of_toNat_eq zero
    rw [none_, BitVec.zero_add] at back
    exact (BitVec.add_zero _).trans back
  · apply reach (id - context.idStart).toNat _ (by omega) (by omega)
    rw [BitVec.ofNat_toNat, BitVec.setWidth_eq, BitVec.add_comm, BitVec.sub_add_cancel]

/-! ## Entries -/

/-- `nw_state_add` puts the entry under a number that was not in use. -/
theorem nwStateAdd_spec {context : NwState α} (room : nwStateCount context < 2 ^ 32 - 1)
    (data : α) : ∃ id state, nwStateAdd context 0 data = some (id, state) ∧
      id ≠ 0 ∧ nwStateGet context id = none ∧ nwStateGet state id = some data ∧
      (∀ other ≠ id, nwStateGet state other = nwStateGet context other) := by
  obtain ⟨id, found⟩ := Option.isSome_iff_exists.mp (getAvailableId_isSome room)
  obtain ⟨nonzero, unused⟩ := availableId_some found
  refine ⟨id, ⟨dictReplace context.table id data, id⟩, ?_, nonzero, unused,
    dictFind_replace, fun other differ => dictFind_replace_ne differ⟩
  unfold nwStateAdd
  rw [if_neg (fun both => both.1 rfl), if_neg (by omega), if_neg (not_not_intro rfl), found,
    Option.map_some]

/-- What `nw_state_add` returns, if it does: the entry is there, and the others are as
before. -/
theorem nwStateGet_of_add {context state : NwState α} {data : α} {id : BitVec 32}
    (added : nwStateAdd context 0 data = some (id, state)) :
    nwStateGet state id = some data ∧
      ∀ other ≠ id, nwStateGet state other = nwStateGet context other := by
  unfold nwStateAdd at added
  rw [if_neg (fun both => both.1 rfl)] at added
  split at added
  · cases added
  rw [if_neg (not_not_intro rfl)] at added
  obtain ⟨found, _, same⟩ := Option.map_eq_some_iff.mp added
  obtain ⟨rfl, rfl⟩ := Prod.mk.inj same
  exact ⟨dictFind_replace, fun other differ => dictFind_replace_ne differ⟩

@[simp]
theorem nwStateGet_del (context : NwState α) (id : BitVec 32) :
    nwStateGet (nwStateDel context id) id = none :=
  dictFind_delete

theorem nwStateGet_del_ne (context : NwState α) {id other : BitVec 32} (differ : other ≠ id) :
    nwStateGet (nwStateDel context id) other = nwStateGet context other :=
  dictFind_delete_ne differ

end ViabtcServer.Network
