import Mathlib.Data.List.Basic
import Mathlib.Algebra.Group.Nat.Defs

/-!
# Checksum registers

A checksum that takes in one symbol after the other. Where a step loses neither
what the register held nor the symbol it took in, changing one symbol of a
message changes the checksum.
-/

namespace ViabtcServer.Wire

/-- The steps of a register. -/
structure Register (σ α : Type) where
  step : σ → α → σ
  /-- A symbol can be told from what the register holds before and after it. -/
  symbol_injective : ∀ state, Function.Injective (step state)
  /-- And what it held before from the symbol and what it holds after. -/
  state_injective : ∀ symbol, Function.Injective fun state => step state symbol

namespace Register

variable {σ α : Type} (register : Register σ α)

/-- What the register holds after a message. -/
def run (state : σ) (message : List α) : σ :=
  message.foldl register.step state

theorem run_append (state : σ) (first second : List α) :
    register.run state (first ++ second) = register.run (register.run state first) second :=
  List.foldl_append

theorem run_injective (message : List α) :
    Function.Injective fun state => register.run state message := by
  induction message with
  | nil => exact fun _ _ same => same
  | cons symbol message ih =>
      intro state state' same
      exact register.state_injective symbol (ih same)

/-- One changed symbol is noticed. -/
theorem run_set_ne {state : σ} {message : List α} {i : ℕ} (inside : i < message.length)
    {symbol : α} (changed : symbol ≠ message[i]) :
    register.run state (message.set i symbol) ≠ register.run state message := by
  intro same
  have split : message = message.take i ++ message[i] :: message.drop (i + 1) := by
    rw [← List.drop_eq_getElem_cons inside, List.take_append_drop]
  have before : register.run state message = register.run
      (register.step (register.run state (message.take i)) message[i]) (message.drop (i + 1)) := by
    conv_lhs => rw [split]
    exact register.run_append _ _ _
  have after : register.run state (message.set i symbol) = register.run
      (register.step (register.run state (message.take i)) symbol) (message.drop (i + 1)) := by
    rw [List.set_eq_take_append_cons_drop, if_pos inside]
    exact register.run_append _ _ _
  rw [before, after] at same
  exact changed (register.symbol_injective _ (register.run_injective _ same))

end Register

end ViabtcServer.Wire
