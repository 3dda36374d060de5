import Mathlib.Data.List.Basic
import Mathlib.Algebra.Ring.Nat

/-!
# Items handed from threads to the event loop

The replies of `nw_job.c` and the messages of `ut_kafka.c`: a producer locks the
mutex, adds its item, writes a byte to a pipe and unlocks; the event loop calls
`on_can_read` while there are bytes in the pipe. A turn is one of these actions.
How a producer gets its item touches neither the items nor the pipe, and is an
arrival here.
-/

namespace ViabtcServer.Network

/-- Which of the two. -/
inductive Handover
  | job
  | kafka
  deriving DecidableEq

namespace Handover

variable {α : Type} (kind : Handover)

/-- Behind `reply_tail`, or `list_add_node_head`. -/
def append (x : α) (items : List α) : List α :=
  match kind with
  | job => items ++ [x]
  | kafka => x :: items

/-- `reply_head`, or `list_tail`. -/
def next (items : List α) : Option α :=
  match kind with
  | job => items.head?
  | kafka => items.getLast?

/-- Without `reply_head`, or `list_del` on the tail. -/
def remove (items : List α) : List α :=
  match kind with
  | job => items.tail
  | kafka => items.dropLast

/-- The items in the order they were added. -/
def arrived (items : List α) : List α :=
  match kind with
  | job => items
  | kafka => items.reverse

variable (x : α) (items : List α)

@[simp]
theorem arrived_append : kind.arrived (kind.append x items) = kind.arrived items ++ [x] := by
  cases kind with
  | job => rfl
  | kafka => exact List.reverse_cons

@[simp]
theorem arrived_remove : kind.arrived (kind.remove items) = (kind.arrived items).tail := by
  cases kind with
  | job => rfl
  | kafka => exact List.tail_reverse.symm

theorem next_eq : kind.next items = (kind.arrived items).head? := by
  cases kind with
  | job => rfl
  | kafka => exact List.head?_reverse.symm

@[simp]
theorem length_append : (kind.append x items).length = items.length + 1 := by
  cases kind with
  | job => exact List.length_append
  | kafka => rfl

@[simp]
theorem length_remove : (kind.remove items).length = items.length - 1 := by
  cases kind with
  | job => exact List.length_tail
  | kafka => exact List.length_dropLast

theorem arrived_eq_nil : kind.arrived items = [] ↔ items = [] := by
  cases kind with
  | job => exact Iff.rfl
  | kafka => exact List.reverse_eq_nil_iff

end Handover

/-- Where a producer is. -/
inductive Producer (ι : Type)
  | idle
  /-- It has an item and is about to lock the mutex. -/
  | ready (x : ι)
  | locked (x : ι)
  | appended
  | written

/-- Where the event loop is. -/
inductive Consumer (ι : Type)
  /-- Not in `on_can_read`. -/
  | waiting
  /-- In the loop that empties the pipe. -/
  | draining
  /-- About to lock the mutex. -/
  | looking
  | locked
  /-- The callback of the Kafka consumer has returned. -/
  | called
  /-- The item is no longer in the list. -/
  | removed (hand : Option ι)
  /-- The mutex is unlocked, and `on_finish` is next. -/
  | finishing (x : ι)

/-- Who makes a turn, or has locked the mutex. -/
inductive Party
  | producer (i : ℕ)
  | consumer
  deriving DecidableEq

/-- Items are with the number of their producer, which is a ghost, as are the last two fields:
what the producers got and what was handed over. -/
structure Handoff (ι : Type) where
  items : List (ℕ × ι)
  pipe : ℕ
  lock : Option Party
  producers : List (Producer ι)
  consumer : Consumer (ℕ × ι)
  consumed : List (ℕ × ι)
  handed : List (ℕ × ι)

/-- A producer gets an item, or someone makes a turn. -/
inductive HandoffStep (ι : Type)
  | arrive (i : ℕ) (x : ι)
  | turn (party : Party)

namespace Handoff

variable {ι : Type} (kind : Handover) (capacity : ℕ) (s : Handoff ι)

/-- After `nw_job_create` or `kafka_consumer_create`, with `n` threads. -/
def create (n : ℕ) : Handoff ι where
  items := []
  pipe := 0
  lock := none
  producers := List.replicate n .idle
  consumer := .waiting
  consumed := []
  handed := []

/-- A producer gets an item. -/
def arrive (i : ℕ) (x : ι) : Option (Handoff ι) :=
  match s.producers[i]? with
  | some .idle => some
      { s with producers := s.producers.set i (.ready x), consumed := s.consumed ++ [(i, x)] }
  | _ => none

/-- `thread_routine`. A byte does not go into a full pipe. -/
def produce (i : ℕ) : Option (Handoff ι) :=
  match s.producers[i]? with
  | some (.ready x) =>
      if s.lock = none then some
        { s with lock := some (.producer i), producers := s.producers.set i (.locked x) }
      else none
  | some (.locked x) => some
      { s with
        items := kind.append (i, x) s.items
        producers := s.producers.set i .appended }
  | some .appended => some
      { s with
        pipe := if s.pipe < capacity then s.pipe + 1 else s.pipe
        producers := s.producers.set i .written }
  | some .written => some { s with lock := none, producers := s.producers.set i .idle }
  | some .idle => none
  | none => none

/-- `on_can_read`. -/
def consume : Option (Handoff ι) :=
  match s.consumer with
  | .waiting => if 0 < s.pipe then some { s with consumer := .draining } else none
  | .draining =>
      if 0 < s.pipe then some { s with pipe := s.pipe - 1 }
      else some { s with consumer := .looking }
  | .looking =>
      if s.lock = none then some { s with lock := some .consumer, consumer := .locked }
      else none
  | .locked =>
      match kind.next s.items with
      | none => some { s with lock := none, consumer := .waiting }
      | some x =>
          match kind with
          | .job => some { s with items := kind.remove s.items, consumer := .removed (some x) }
          | .kafka => some { s with handed := s.handed ++ [x], consumer := .called }
  | .called => some { s with items := kind.remove s.items, consumer := .removed none }
  | .removed none => some { s with lock := none, consumer := .looking }
  | .removed (some x) => some { s with lock := none, consumer := .finishing x }
  | .finishing x => some { s with handed := s.handed ++ [x], consumer := .looking }

/-- A turn of a thread or of the event loop. -/
def turn (party : Party) : Option (Handoff ι) :=
  match party with
  | .producer i => s.produce kind capacity i
  | .consumer => s.consume kind

end Handoff

/-- What a step does. -/
def HandoffStep.run {ι : Type} (kind : Handover) (capacity : ℕ) (step : HandoffStep ι)
    (s : Handoff ι) : Option (Handoff ι) :=
  match step with
  | arrive i x => s.arrive i x
  | turn party => s.turn kind capacity party

/-- Several steps. -/
def handoffRun {ι : Type} (kind : Handover) (capacity : ℕ) :
    List (HandoffStep ι) → Handoff ι → Option (Handoff ι)
  | [], s => some s
  | step :: steps, s =>
      (step.run kind capacity s).bind (handoffRun kind capacity steps)

/-! ## What is where -/

/-- The threads that have locked the mutex. -/
def Producer.Holds {ι : Type} : Producer ι → Prop
  | locked _ | appended | written => True
  | _ => False

/-- The item a thread has not added yet. -/
def Producer.item {ι : Type} : Producer ι → Option ι
  | ready x | locked x => some x
  | _ => none

/-- The event loop has locked the mutex. -/
def Consumer.Holds {ι : Type} : Consumer ι → Prop
  | locked | called | removed _ => True
  | _ => False

namespace Handoff

variable {ι : Type} (kind : Handover) (s : Handoff ι)

/-- The items that are added and not handed over, in the order they were added. -/
def underway : List (ℕ × ι) :=
  match s.consumer with
  | .called => (kind.arrived s.items).tail
  | .removed (some x) | .finishing x => x :: kind.arrived s.items
  | _ => kind.arrived s.items

/-- The item of a thread. -/
def held (i : ℕ) : List (ℕ × ι) :=
  (s.producers[i]?.bind Producer.item).toList.map (Prod.mk i)

/-- The items of one producer. -/
def ofProducer (i : ℕ) (items : List (ℕ × ι)) : List (ℕ × ι) :=
  items.filter fun x => x.1 = i

/-- Nobody can make a turn. -/
def Quiet (capacity : ℕ) : Prop :=
  ∀ party, s.turn kind capacity party = none

/-- What a thread has to do yet. -/
def producerWork : Producer ι → ℕ
  | .idle => 0
  | .written => 10
  | .appended => 30
  | .locked _ => 50
  | .ready _ => 60

/-- What the event loop has to do yet, with the bytes in the pipe. -/
def consumerWork (pipe : ℕ) : Consumer (ℕ × ι) → ℕ
  | .waiting => 10 * pipe
  | .draining => if pipe = 0 then 8 else 10 * pipe - 1
  | .looking => 10 * pipe + 7
  | .locked => 10 * pipe + 6
  | .called => 10 * pipe + 5
  | .removed _ => 10 * pipe + 9
  | .finishing _ => 10 * pipe + 8

/-- Every turn takes some of it. -/
def work : ℕ :=
  (s.producers.map producerWork).sum + 10 * s.items.length + consumerWork s.pipe s.consumer

end Handoff

end ViabtcServer.Network
