import ViabtcServer.Memory.Rehash
import ViabtcServer.Network.State

/-!
# The table of waiting requests

`nw_state.c` on entries in a table of buckets, with their timers. A timer is armed
while the event loop may call it. Entries have numbers in the order they were
added, and what is released is written down with the cause; both are ghosts. An
operation without a result has read or written outside the table or an entry, or
does not return. The address of a new entry is an argument.
-/

namespace ViabtcServer.Network

open Memory Container

/-- `nw_state_entry`; `serial` is a ghost. -/
structure StateEntry (ρ : Type) where
  id : BitVec 32
  serial : ℕ
  next : Option ρ

/-- Who released an entry. -/
inductive Release
  | del
  | timeout
  deriving DecidableEq

/-- `nw_state` with its entries and their timers; the last two fields are ghosts. -/
structure StateTable (ρ : Type) where
  table : Heap ℕ (Option ρ)
  tableSize : ℕ
  tableMask : ℕ
  used : ℕ
  idStart : BitVec 32
  nodes : Heap ρ (StateEntry ρ)
  armed : ρ → Bool
  births : ℕ
  released : List (ℕ × Release)

variable {ρ : Type}

/-- Entries as linked cells. -/
def stateLinked : Linked ρ (StateEntry ρ) (BitVec 32 × ℕ) where
  next := StateEntry.next
  setNext := fun next entry => { entry with next }
  data := fun entry => (entry.id, entry.serial)
  next_setNext := fun _ _ => rfl
  data_setNext := fun _ _ => rfl

namespace StateTable

/-- `nw_state_create`. -/
def create : StateTable ρ where
  table := calloc 64
  tableSize := 64
  tableMask := 63
  used := 0
  idStart := 0
  nodes := Heap.empty
  armed := fun _ => false
  births := 0
  released := []

/-- `nw_state_get`. -/
def get (context : StateTable ρ) (id : BitVec 32) : Option (Option ρ) :=
  (context.table (id.toNat &&& context.tableMask)).bind fun entry =>
    (seek stateLinked context.nodes (fun other => other.1 = id) context.used none entry).map
      fun found => found.map Prod.snd

/-- The loop of `get_available_id`, for at most `fuel` rounds. -/
def availableIdLoop (context : StateTable ρ) : ℕ → BitVec 32 → Option (BitVec 32)
  | 0, _ => none
  | fuel + 1, idStart => (context.get (nextId idStart)).bind fun
      | none => some (nextId idStart)
      | some _ => availableIdLoop context fuel (nextId idStart)

variable [DecidableEq ρ]

/-- `expand_if_needed`. -/
def expandIfNeeded (context : StateTable ρ) : Option (StateTable ρ) :=
  if context.used < context.tableSize * 4 % 2 ^ 32 then some context
  else
    let newTableSize := context.tableSize * 4 % 2 ^ 32
    let newTableMask := (newTableSize + (2 ^ 32 - 1)) % 2 ^ 32
    (moveBuckets stateLinked (fun entry => entry.1.toNat &&& newTableMask) context.table
      (fun _ => false) context.used context.tableSize 0 context.used (calloc newTableSize)
      context.nodes).map fun (table, nodes) =>
        { context with table, tableSize := newTableSize, tableMask := newTableMask, nodes }

/-- The id of a new entry, and `id_start` then. -/
def newId (context : StateTable ρ) (id : BitVec 32) : Option (BitVec 32 × BitVec 32) :=
  if id ≠ 0 then some (id, context.idStart)
  else (context.availableIdLoop (2 ^ 32) context.idStart).map fun id => (id, id)

/-- Put a new entry in its bucket and start its timer. -/
def link (context : StateTable ρ) (entry : ρ) (id idStart : BitVec 32) : Option (StateTable ρ) :=
  (context.table (id.toNat &&& context.tableMask)).map fun next =>
    { context with
      table := Function.update context.table (id.toNat &&& context.tableMask) (some (some entry))
      used := (context.used + 1) % 2 ^ 32
      idStart
      nodes := context.nodes.alloc entry ⟨id, context.births, next⟩
      armed := Function.update context.armed entry true
      births := context.births + 1 }

/-- `nw_state_add`. -/
def add (context : StateTable ρ) (entry : ρ) (id : BitVec 32) :
    Option (StateTable ρ × Option ρ) :=
  (if id ≠ 0 then context.get id else some none).bind fun
    | some _ => some (context, none)
    | none =>
        if context.used = 2 ^ 32 - 1 then some (context, none)
        else (context.newId id).bind fun (id, idStart) => context.expandIfNeeded.bind
          fun context => (context.link entry id idStart).map fun context => (context, some entry)

/-- `nw_state_mod`. -/
def mod (context : StateTable ρ) (id : BitVec 32) : Option (StateTable ρ × ℤ) :=
  (context.get id).map fun
    | none => (context, -1)
    | some entry => ({ context with armed := Function.update context.armed entry true }, 0)

/-- `state_remove`, and who called it. -/
def stateRemove (context : StateTable ρ) (entry : ρ) (cause : Release) : Option (StateTable ρ) :=
  (context.nodes entry).bind fun cell =>
    (context.table (cell.id.toNat &&& context.tableMask)).bind fun curr =>
      (seek stateLinked context.nodes (fun other => other.1 = cell.id) context.used none
        curr).bind fun
          | none => some context
          | some (prev, _) =>
              (bypass stateLinked context.table context.nodes
                (cell.id.toNat &&& context.tableMask) prev cell.next).bind fun (table, nodes) =>
                  (nodes.free entry).map fun nodes =>
                    { context with
                      table
                      nodes
                      used := (context.used + (2 ^ 32 - 1)) % 2 ^ 32
                      released := context.released ++ [(cell.serial, cause)] }

/-- `ev_timer_stop` on the timer of an entry. -/
def stopTimer (context : StateTable ρ) (entry : ρ) : StateTable ρ :=
  { context with armed := Function.update context.armed entry false }

/-- `nw_state_del`. -/
def del (context : StateTable ρ) (id : BitVec 32) : Option (StateTable ρ × ℤ) :=
  (context.get id).bind fun
    | none => some (context, -1)
    | some entry => ((context.stopTimer entry).stateRemove entry .del).map
        fun context => (context, 0)

end StateTable

/-! ## Runs -/

/-- A call from outside, with the address of the entry it allocates. -/
inductive StateCall (ρ : Type)
  | add (entry : ρ) (id : BitVec 32)
  | get (id : BitVec 32)
  | mod (id : BitVec 32)
  | del (id : BitVec 32)

/-- A call, or the timer of an entry and the calls of `on_timeout` then. -/
inductive StateStep (ρ : Type)
  | call (call : StateCall ρ)
  | expire (entry : ρ) (callback : List (StateCall ρ))

variable [DecidableEq ρ]

/-- What a call does to the table. -/
def StateCall.run (call : StateCall ρ) (context : StateTable ρ) : Option (StateTable ρ) :=
  match call with
  | add entry id => (context.add entry id).map Prod.fst
  | get id => (context.get id).map fun _ => context
  | mod id => (context.mod id).map Prod.fst
  | del id => (context.del id).map Prod.fst

/-- Several calls. -/
def stateCalls : List (StateCall ρ) → StateTable ρ → Option (StateTable ρ)
  | [], context => some context
  | call :: calls, context => (call.run context).bind (stateCalls calls)

/-- `on_timeout`: the timer has stopped, the callback makes its calls, the entry is removed. -/
def StateTable.onTimeout (context : StateTable ρ) (entry : ρ) (callback : List (StateCall ρ)) :
    Option (StateTable ρ) :=
  (context.nodes entry).bind fun _ => (stateCalls callback (context.stopTimer entry)).bind
    fun context => context.stateRemove entry .timeout

/-- What a step does to the table. -/
def StateStep.run (step : StateStep ρ) (context : StateTable ρ) : Option (StateTable ρ) :=
  match step with
  | call c => c.run context
  | expire entry callback => context.onTimeout entry callback

/-- Several steps. -/
def stateRuns : List (StateStep ρ) → StateTable ρ → Option (StateTable ρ)
  | [], context => some context
  | step :: steps, context => (step.run context).bind (stateRuns steps)

end ViabtcServer.Network
