import ViabtcServer.Memory.Rehash
import ViabtcServer.Memory.Iteration
import Mathlib.Data.Int.Basic

/-!
# Dictionaries on nodes

`ut_dict.c` with its table of buckets. Keys and values are what the pointers point
to, so the copies of `key_dup` and `val_dup` are the same. An operation
without a result has read or written outside the table or a node, or does not
return. The address of a new entry is an argument.
-/

namespace ViabtcServer.Container

open Memory

/-- `dict_entry`. -/
structure DictEntry (ρ K V : Type) where
  key : K
  val : V
  id : ℕ
  next : Option ρ

/-- What `dict_types` says about keys. -/
structure DictTypes (K : Type) where
  hashFunction : K → ℕ
  keyCompare : K → K → ℤ

/-- `dict_t` and its entries. -/
structure DictT (ρ K V : Type) where
  table : Heap ℕ (Option ρ)
  type : DictTypes K
  size : ℕ
  mask : ℕ
  used : ℕ
  idStart : ℕ
  idClear : ℕ
  nodes : Heap ρ (DictEntry ρ K V)

/-- `dict_iterator`. -/
structure DictIter (ρ : Type) where
  index : ℤ
  entry : Option ρ
  nextEntry : Option ρ

variable {ρ K V : Type}

/-- Entries as linked cells. -/
def dictLinked : Linked ρ (DictEntry ρ K V) (K × V × ℕ) where
  next := DictEntry.next
  setNext := fun next entry => { entry with next }
  data := fun entry => (entry.key, entry.val, entry.id)
  next_setNext := fun _ _ => rfl
  data_setNext := fun _ _ => rfl

/-- The loop of `dict_next_power`, for at most `fuel` rounds. -/
def nextPowerLoop (size : ℕ) : ℕ → ℕ → Option ℕ
  | 0, _ => none
  | fuel + 1, realsize =>
      if size ≤ realsize then some realsize else nextPowerLoop size fuel (realsize * 2 % 2 ^ 32)

/-- `dict_next_power`; what has not returned after 31 rounds never returns. -/
def nextPower (size : ℕ) : Option ℕ :=
  nextPowerLoop size 31 4

namespace DictT

/-- `dict_create`. -/
def create (type : DictTypes K) (initSize : ℕ) : Option (DictT ρ K V) :=
  (nextPower initSize).map fun size =>
    { table := calloc size
      type
      size
      mask := size - 1
      used := 0
      idStart := 0
      idClear := 0
      nodes := Heap.empty }

/-- `DICT_HASH_KEY(dt, key) & dt->mask`. -/
def index (dt : DictT ρ K V) (key : K) : ℕ :=
  dt.type.hashFunction key &&& dt.mask

variable [DecidableEq ρ]

/-- `dict_expand`. -/
def expand (dt : DictT ρ K V) (size : ℕ) : Option (DictT ρ K V) :=
  (nextPower size).bind fun size =>
    (moveBuckets dictLinked (fun entry => dt.type.hashFunction entry.1 &&& (size - 1)) dt.table
      (fun used => used = 0) dt.used dt.size 0 dt.used (calloc size) dt.nodes).map
        fun (table, nodes) => { dt with table, size, mask := size - 1, nodes }

/-- `dict_expand_if_needed`. -/
def expandIfNeeded (dt : DictT ρ K V) : Option (DictT ρ K V) :=
  if dt.size * 4 % 2 ^ 32 ≤ dt.used then dt.expand (dt.size * 4 % 2 ^ 32) else some dt

/-- Take an entry out of its bucket and free it. -/
def remove (dt : DictT ρ K V) (index : ℕ) (prev : Option ρ) (entry : ρ) : Option (DictT ρ K V) :=
  (dt.nodes entry).bind fun cell =>
    (bypass dictLinked dt.table dt.nodes index prev cell.next).bind fun (table, nodes) =>
      (nodes.free entry).map fun nodes =>
        { dt with table, nodes, used := (dt.used + (2 ^ 32 - 1)) % 2 ^ 32 }

/-- The loop of `check_clear`. -/
def checkClearLoop (index : ℕ) :
    ℕ → Option ρ → Option ρ → DictT ρ K V → Option (DictT ρ K V)
  | _, _, none, dt => some dt
  | 0, _, some _, _ => none
  | fuel + 1, prev, some entry, dt => (dt.nodes entry).bind fun cell =>
      if cell.id < dt.idClear then
        (dt.remove index prev entry).bind (checkClearLoop index fuel prev cell.next)
      else checkClearLoop index fuel (some entry) cell.next dt

/-- `check_clear`. -/
def checkClear (dt : DictT ρ K V) (index : ℕ) : Option (DictT ρ K V) :=
  (dt.table index).bind fun entry => checkClearLoop index dt.used none entry dt

/-- `dict_find`. -/
def find (dt : DictT ρ K V) (key : K) : Option (DictT ρ K V × Option ρ) :=
  (if 0 < dt.idClear then dt.checkClear (dt.index key) else some dt).bind fun dt =>
    (dt.table (dt.index key)).bind fun entry =>
      (seek dictLinked dt.nodes (fun other => dt.type.keyCompare key other.1 = 0) dt.used none
        entry).map fun found => (dt, found.map Prod.snd)

/-- `dict_add`. -/
def add (dt : DictT ρ K V) (entry : ρ) (key : K) (val : V) :
    Option (DictT ρ K V × Option ρ) :=
  (dt.find key).bind fun
    | (dt, some _) => some (dt, none)
    | (dt, none) => dt.expandIfNeeded.bind fun dt =>
        (dt.table (dt.index key)).map fun next =>
          ({ dt with
            table := Function.update dt.table (dt.index key) (some (some entry))
            used := (dt.used + 1) % 2 ^ 32
            idStart := dt.idStart + 1
            nodes := dt.nodes.alloc entry ⟨key, val, dt.idStart, next⟩ }, some entry)

/-- `dict_replace`. -/
def replace (dt : DictT ρ K V) (entry : ρ) (key : K) (val : V) : Option (DictT ρ K V × ℤ) :=
  (dt.find key).bind fun
    | (dt, none) => (dt.add entry key val).map fun (dt, added) =>
        (dt, if added = none then -1 else 1)
    | (dt, some found) => (dt.nodes.assign (some found) fun cell => { cell with val }).map
        fun nodes => ({ dt with nodes }, 0)

/-- `dict_delete`. -/
def delete (dt : DictT ρ K V) (key : K) : Option (DictT ρ K V × ℤ) :=
  (dt.table (dt.index key)).bind fun entry =>
    (seek dictLinked dt.nodes (fun other => dt.type.keyCompare other.1 key = 0) dt.used none
      entry).bind fun
        | none => some (dt, 0)
        | some (prev, entry) => (dt.remove (dt.index key) prev entry).map fun dt => (dt, 1)

end DictT

/-- `dict_get_iterator`. -/
def dictGetIterator : DictIter ρ :=
  ⟨-1, none, none⟩

/-- The loop of `dict_next`, for at most `fuel` rounds. -/
def dictNextLoop (dt : DictT ρ K V) : ℕ → DictIter ρ → Option (Option ρ × DictIter ρ)
  | 0, _ => none
  | fuel + 1, iter =>
      let give (iter : DictIter ρ) : Option (Option ρ × DictIter ρ) :=
        match iter.entry with
        | none => dictNextLoop dt fuel iter
        | some entry => (dt.nodes entry).map fun cell =>
            (some entry, { iter with nextEntry := cell.next })
      match iter.entry with
      | none =>
          if (dt.size : ℤ) ≤ iter.index + 1 then
            some (none, { iter with index := iter.index + 1 })
          else (dt.table (iter.index + 1).toNat).bind fun entry =>
            give { iter with index := iter.index + 1, entry }
      | some _ => give { iter with entry := iter.nextEntry }

/-- `dict_next`. -/
def dictNext (dt : DictT ρ K V) (iter : DictIter ρ) : Option (Option ρ × DictIter ρ) :=
  dictNextLoop dt (dt.size + 2) iter

variable [DecidableEq ρ]

/-- Iterations over a dictionary; a caller deletes an entry by its key. -/
def dictIterator : Iterator (DictT ρ K V) (DictIter ρ) ρ where
  next := dictNext
  del := fun dt entry => (dt.nodes entry).bind fun cell => (dt.delete cell.key).map Prod.fst

/-- `dict_clear`. -/
def DictT.clear (dt : DictT ρ K V) : Option (DictT ρ K V) :=
  (dictIterator.sweep (Iterator.justGiven fun _ => true) (dt.used + 1) [] dt dictGetIterator).map
    Prod.snd

/-! ## Sizes -/

/-- Below its range `dict_next_power` returns a power of two. -/
theorem nextPowerLoop_eq {size fuel k : ℕ} (small : size ≤ 2 ^ 31) (least : 2 ≤ k) (most : k ≤ 31)
    (enough : 31 < k + fuel) :
    ∃ m, nextPowerLoop size fuel (2 ^ k) = some (2 ^ m) ∧ size ≤ 2 ^ m ∧ 2 ≤ m ∧ m ≤ 31 := by
  induction fuel generalizing k with
  | zero => exact absurd enough (Nat.not_lt.mpr most)
  | succ fuel ih =>
      unfold nextPowerLoop
      by_cases reached : size ≤ 2 ^ k
      · rw [if_pos reached]
        exact ⟨k, rfl, reached, least, most⟩
      · have below : k < 31 := by
          rcases Nat.lt_or_eq_of_le most with less | rfl
          · exact less
          · exact absurd small reached
        have wrap : 2 ^ k * 2 % 2 ^ 32 = 2 ^ (k + 1) := by
          rw [← Nat.pow_succ]
          exact Nat.mod_eq_of_lt (Nat.pow_lt_pow_right Nat.one_lt_two (by omega))
        rw [if_neg reached, wrap]
        exact ih (Nat.le_succ_of_le least) below (by omega)

theorem nextPower_eq {size : ℕ} (small : size ≤ 2 ^ 31) :
    ∃ m, nextPower size = some (2 ^ m) ∧ size ≤ 2 ^ m ∧ 2 ≤ m ∧ m ≤ 31 :=
  nextPowerLoop_eq small (le_refl 2) (by omega) (by omega)

/-- Above, it never returns: the size it tries becomes 0. -/
theorem nextPowerLoop_none {size realsize : ℕ} (large : 2 ^ 31 < size) (fuel : ℕ)
    (tried : realsize = 0 ∨ ∃ k ≤ 31, realsize = 2 ^ k) :
    nextPowerLoop size fuel realsize = none := by
  induction fuel generalizing realsize with
  | zero => rfl
  | succ fuel ih =>
      have below : realsize ≤ 2 ^ 31 := by
        rcases tried with rfl | ⟨k, most, rfl⟩
        · exact Nat.zero_le _
        · exact Nat.pow_le_pow_right Nat.two_pos most
      unfold nextPowerLoop
      rw [if_neg (Nat.not_le.mpr (below.trans_lt large))]
      apply ih
      rcases tried with rfl | ⟨k, most, rfl⟩
      · exact Or.inl rfl
      · rcases Nat.lt_or_eq_of_le most with less | rfl
        · right
          refine ⟨k + 1, less, ?_⟩
          rw [← Nat.pow_succ]
          exact Nat.mod_eq_of_lt (Nat.pow_lt_pow_right Nat.one_lt_two (by omega))
        · exact Or.inl rfl

theorem nextPower_none {size : ℕ} (large : 2 ^ 31 < size) : nextPower size = none :=
  nextPowerLoop_none large 31 (Or.inr ⟨2, by omega, rfl⟩)

end ViabtcServer.Container
