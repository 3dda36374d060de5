import Mathlib.Data.NNRat.Defs
import Mathlib.Logic.Function.Basic
import Mathlib.Algebra.Field.Rat

/-!
# Balances that cannot be negative

A store of balances, none of them negative; an account without a balance holds
zero. Amounts are rational numbers. An operation refuses negative amounts, and
taking from an account refuses what is not there.
-/

namespace ViabtcServer.Accounting

/-- What each account holds. -/
abbrev Balances (κ : Type) := κ → ℚ≥0

namespace Balances

variable {κ : Type} [DecidableEq κ] {f f' : Balances κ} {key source target : κ} {q : ℚ}

/-- Let an account hold an amount. -/
def set (f : Balances κ) (key : κ) (q : ℚ) : Option (Balances κ) :=
  if q < 0 then none else some (Function.update f key q.toNNRat)

/-- Add an amount to an account. -/
def add (f : Balances κ) (key : κ) (q : ℚ) : Option (Balances κ) :=
  if q < 0 then none else some (Function.update f key (f key + q.toNNRat))

/-- Nothing can be taken from an empty account, and no more than it holds. -/
def Lacks (f : Balances κ) (key : κ) (q : ℚ) : Prop :=
  q < 0 ∨ f key = 0 ∨ (f key : ℚ) < q

omit [DecidableEq κ] in
instance : Decidable (Lacks f key q) :=
  inferInstanceAs (Decidable (_ ∨ _ ∨ _))

/-- Take an amount from an account. -/
def sub (f : Balances κ) (key : κ) (q : ℚ) : Option (Balances κ) :=
  if f.Lacks key q then none else some (Function.update f key (f key - q.toNNRat))

/-- Move an amount from one account to another. -/
def move (f : Balances κ) (source target : κ) (q : ℚ) : Option (Balances κ) :=
  if f.Lacks source q then none
  else
    some (Function.update (Function.update f target (f target + q.toNNRat)) source
      (f source - q.toNNRat))

omit [DecidableEq κ] in
theorem lacks_negative (negative : q < 0) : f.Lacks key q :=
  Or.inl negative

omit [DecidableEq κ] in
theorem lacks_empty (empty : f key = 0) : f.Lacks key q :=
  Or.inr (Or.inl empty)

omit [DecidableEq κ] in
theorem lacks_less (less : (f key : ℚ) < q) : f.Lacks key q :=
  Or.inr (Or.inr less)

omit [DecidableEq κ] in
theorem not_lacks : ¬ f.Lacks key q ↔ 0 ≤ q ∧ f key ≠ 0 ∧ q ≤ f key := by
  unfold Lacks
  rw [not_or, not_or, not_lt, not_lt]

/-- A move leaves what the two accounts hold together. -/
theorem move_sum (apart : source ≠ target) (moved : f.move source target q = some f') :
    f' source + f' target = f source + f target := by
  unfold move at moved
  split at moved
  · cases moved
  rename_i enough
  obtain rfl := Option.some.inj moved
  rcases not_lacks.mp enough with ⟨nonneg, _, le⟩
  have there : q.toNNRat ≤ f source := by
    rw [← NNRat.coe_le_coe, Rat.coe_toNNRat q nonneg]
    exact le
  have back : f source - q.toNNRat + q.toNNRat = f source := by
    apply NNRat.ext
    rw [NNRat.coe_add, NNRat.coe_sub there, sub_add_cancel]
  rw [Function.update_self, Function.update_of_ne apart.symm, Function.update_self,
    add_comm (f target), ← add_assoc, back]

/-- And every other account as it was. -/
theorem move_other (moved : f.move source target q = some f') {other : κ}
    (notSource : other ≠ source) (notTarget : other ≠ target) : f' other = f other := by
  unfold move at moved
  split at moved
  · cases moved
  obtain rfl := Option.some.inj moved
  rw [Function.update_of_ne notSource, Function.update_of_ne notTarget]

end Balances

end ViabtcServer.Accounting
