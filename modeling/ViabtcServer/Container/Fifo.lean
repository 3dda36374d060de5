import Mathlib.Data.List.Basic

/-!
# First in, first out

What went in at one end of a queue and came out at the other. Nothing is lost,
repeated or overtaken: what came out, followed by what still waits, is what went
in.
-/

namespace ViabtcServer.Container

/-- What a queue has let out and what waits in it, oldest first. -/
structure Fifo (α : Type) where
  out : List α
  waiting : List α

namespace Fifo

variable {α : Type} (f : Fifo α)

/-- All that went in. -/
def all : List α :=
  f.out ++ f.waiting

/-- One more goes in. -/
def put (x : α) : Fifo α :=
  { f with waiting := f.waiting ++ [x] }

/-- The oldest `n` come out. -/
def take (n : ℕ) : Fifo α where
  out := f.out ++ f.waiting.take n
  waiting := f.waiting.drop n

@[simp]
theorem put_all (x : α) : (f.put x).all = f.all ++ [x] :=
  (List.append_assoc _ _ _).symm

@[simp]
theorem take_all (n : ℕ) : (f.take n).all = f.all := by
  unfold all take
  rw [List.append_assoc, List.take_append_drop]

@[simp]
theorem take_zero : f.take 0 = f := by
  unfold take
  rw [List.take_zero, List.append_nil, List.drop_zero]

/-- What came out stays out. -/
theorem out_prefix_take (n : ℕ) : f.out <+: (f.take n).out :=
  List.prefix_append _ _

theorem take_take (n k : ℕ) : (f.take n).take k = f.take (n + k) := by
  unfold take
  rw [List.append_assoc, ← List.take_add, List.drop_drop]

/-- What waits alone comes out at once. -/
theorem put_take_of_empty {x : α} (empty : f.waiting = []) :
    (f.put x).take 1 = ⟨f.out ++ [x], []⟩ := by
  unfold take put
  rw [empty]
  rfl

end Fifo

end ViabtcServer.Container
