import ViabtcServer.Decimal.Libmpdec

/-!
# What the context can hold

Numbers with a given count of digits after the point are exact under the context
as long as they stay below a power of ten. Sums, differences and products that
stay there are the true ones.
-/

namespace ViabtcServer.Decimal

/-- The power of ten that numbers with `d` digits after the point stay below when the
context is to write them. Behind its least exponent only zero is left. -/
def capacityExp (d : ℤ) : ℤ :=
  if d ≤ -mpdEtiny then mpdPrec - max d (1 - mpdEtop) else -d

def capacity (d : ℤ) : ℚ :=
  10 ^ capacityExp d

theorem capacity_pos (d : ℤ) : 0 < capacity d :=
  zpow_pos (by norm_num) _

/-- More digits after the point leave fewer before it. -/
theorem capacity_anti {d d' : ℤ} (le : d ≤ d') : capacity d' ≤ capacity d := by
  apply zpow_le_zpow_right₀ (by norm_num)
  have top : mpdEtop = 6111 := rfl
  have least : mpdEtiny = -6176 := rfl
  have digits : ((mpdPrec : ℕ) : ℤ) = 34 := rfl
  unfold capacityExp
  split <;> split <;> omega

theorem capacity_shift {d s : ℤ} (nonneg : 0 ≤ d) (nonneg' : 0 ≤ s) :
    capacity (d + s) * 10 ^ s ≤ capacity d := by
  unfold capacity
  rw [← zpow_add₀ (by norm_num : (10 : ℚ) ≠ 0)]
  apply zpow_le_zpow_right₀ (by norm_num)
  have top : mpdEtop = 6111 := rfl
  have least : mpdEtiny = -6176 := rfl
  have digits : ((mpdPrec : ℕ) : ℤ) = 34 := rfl
  unfold capacityExp
  split <;> split <;> omega

/-- `q` has at most `d` digits after the point and stays below the capacity. -/
structure InCapacity (d : ℤ) (q : ℚ) : Prop where
  grid : OnGrid (-d) q
  small : |q| < capacity d

variable {d d' : ℤ} {q r : ℚ}

theorem InCapacity.of_nonneg (grid : OnGrid (-d) q) (nonneg : 0 ≤ q) (small : q < capacity d) :
    InCapacity d q :=
  ⟨grid, by rwa [abs_of_nonneg nonneg]⟩

/-- The context writes what fits. -/
theorem InCapacity.sigDigits (fits : InCapacity d q) : SigDigits mpdCtx q := by
  rcases fits with ⟨grid, small⟩
  have top : mpdEtop = 6111 := rfl
  have least : mpdEtiny = -6176 := rfl
  unfold capacity capacityExp at small
  split at small
  · -- the unit is one of the context
    rw [sub_eq_add_neg] at small
    rcases (grid.mono (neg_le_neg (le_max_left d (1 - mpdEtop)))).coefficient small with
      ⟨k, digits, same⟩
    refine ⟨k, _, digits, ?_, ?_, same⟩
    · change mpdEtiny ≤ _
      omega
    · change _ ≤ mpdEtop
      omega
  · rw [← zero_add (-d), ← Nat.cast_zero] at small
    rcases grid.coefficient small with ⟨k, digits, same⟩
    rw [pow_zero, Int.abs_lt_one_iff] at digits
    rw [same, digits, Int.cast_zero, zero_mul]
    exact .zero

/-- A result below the capacity was not rounded. -/
theorem RoundsDown.eq_of_small (rounds : RoundsDown mpdCtx q r) (grid : OnGrid (-d) q)
    (fine : d ≤ -mpdEtiny) (small : |r| < capacity d) : r = q := by
  rcases lt_or_ge |q| (capacity d) with below | above
  · exact rounds.eq_of_sigDigits (InCapacity.sigDigits ⟨grid, below⟩)
  · -- the capacity is a number of the context
    exfalso
    have top : mpdEtop = 6111 := rfl
    have least : mpdEtiny = -6176 := rfl
    have digits : ((mpdPrec : ℕ) : ℤ) = 34 := rfl
    have digits_ : SigDigits mpdCtx (capacity d) := by
      refine ⟨10 ^ 33, 1 - max d (1 - mpdEtop), by decide, ?_, ?_, ?_⟩
      · change mpdEtiny ≤ _
        omega
      · change _ ≤ mpdEtop
        omega
      · unfold capacity capacityExp
        rw [if_pos fine, Int.cast_pow, ← zpow_natCast, Int.cast_ofNat,
          ← zpow_add₀ (by norm_num : (10 : ℚ) ≠ 0)]
        congr 1
        push_cast
        omega
    have next := rounds.next digits_
    rw [abs_of_pos (capacity_pos d)] at next
    exact absurd (next above) (not_le.mpr small)

/-- Behind the least exponent no positive number with fewer digits is below the capacity. -/
theorem fine_of_lt {p : ℤ} (le : p ≤ d) (grid : OnGrid (-p) q) (pos : 0 < q)
    (small : q < capacity d) : d ≤ -mpdEtiny := by
  by_contra far
  unfold capacity capacityExp at small
  rw [if_neg far] at small
  have unit := grid.unit_le pos
  have least : (10 : ℚ) ^ (-d) ≤ 10 ^ (-p) :=
    zpow_le_zpow_right₀ (by norm_num) (neg_le_neg le)
  linarith

section Operations

variable [Libmpdec] {a b : Mpd}

theorem mpdAdd_fits (fa : a.isFinite) (fb : b.isFinite) (fits : InCapacity d (a.value + b.value)) :
    (mpdAdd a b).value = a.value + b.value :=
  (mpdAdd_exact_iff fa fb).mpr fits.sigDigits

theorem mpdSub_fits (fa : a.isFinite) (fb : b.isFinite) (fits : InCapacity d (a.value - b.value)) :
    (mpdSub a b).value = a.value - b.value :=
  (mpdSub_exact_iff fa fb).mpr fits.sigDigits

theorem mpdMul_fits (fa : a.isFinite) (fb : b.isFinite) (fits : InCapacity d (a.value * b.value)) :
    (mpdMul a b).value = a.value * b.value :=
  (mpdMul_exact_iff fa fb).mpr fits.sigDigits

end Operations

end ViabtcServer.Decimal
