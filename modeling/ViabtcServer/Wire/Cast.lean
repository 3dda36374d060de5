import Mathlib.Data.Nat.Basic
import Mathlib.Data.Int.Basic
import Mathlib.Algebra.Order.Ring.Nat

/-!
# Conversions between integers of C

What becomes of a `size_t` that is assigned to an `int`, and of an `int` that is
compared with a `size_t`.
-/

namespace ViabtcServer.Wire

/-- A `size_t` as an `int`. -/
def intOfSize (n : ℕ) : ℤ :=
  (BitVec.ofNat 32 n).toInt

/-- An `int` as a `size_t`. -/
def sizeOfInt (i : ℤ) : ℕ :=
  (BitVec.ofInt 64 i).toNat

variable {n : ℕ} {i : ℤ}

theorem intOfSize_eq (n : ℕ) : intOfSize n =
    if n % 2 ^ 32 < 2 ^ 31 then (n : ℤ) % 2 ^ 32 else (n : ℤ) % 2 ^ 32 - 2 ^ 32 := by
  unfold intOfSize
  rw [BitVec.toInt_eq_toNat_cond, BitVec.toNat_ofNat]
  split <;> split <;> omega

theorem intOfSize_of_lt (small : n < 2 ^ 31) : intOfSize n = n := by
  rw [intOfSize_eq, if_pos (by omega)]
  omega

theorem sizeOfInt_eq (i : ℤ) : (sizeOfInt i : ℤ) = i % 2 ^ 64 := by
  unfold sizeOfInt
  rw [BitVec.toNat_ofInt]
  omega

theorem sizeOfInt_natCast (small : n < 2 ^ 64) : sizeOfInt n = n := by
  have eq := sizeOfInt_eq n
  omega

/-- A size up to the largest `int` survives, and one more is taken for a larger. -/
theorem le_sizeOfInt_intOfSize (small : n ≤ 2 ^ 31) : n ≤ sizeOfInt (intOfSize n) := by
  rcases Nat.lt_or_eq_of_le small with less | eq
  · rw [intOfSize_of_lt less, sizeOfInt_natCast (by omega)]
  · subst eq
    decide

theorem sizeOfInt_intOfSize (small : n < 2 ^ 31) : sizeOfInt (intOfSize n) = n := by
  rw [intOfSize_of_lt small, sizeOfInt_natCast (by omega)]

end ViabtcServer.Wire
