import ViabtcServer.Decimal.Reference

/-!
# Division with remainder

`mpd_divmod` under `mpd_ctx`. The integer part of the quotient is exact where 34 digits
can write it; otherwise both results are NaN. The remainder is rounded, which takes no
remainder of numbers of the context to zero.
-/

namespace ViabtcServer.Decimal

/-- `mpd_divmod`: the quotient and the remainder. -/
class Divmod where
  mpdDivmod : Mpd → Mpd → Mpd × Mpd
  quotient : ∀ {a b}, a.isFinite → b.isFinite → b.value ≠ 0 →
    |truncate (a.value / b.value)| < 10 ^ mpdPrec →
      (mpdDivmod a b).1.isFinite ∧ (mpdDivmod a b).1.value = truncate (a.value / b.value)
  remainder : ∀ {a b}, a.isFinite → b.isFinite → b.value ≠ 0 →
    |truncate (a.value / b.value)| < 10 ^ mpdPrec →
      (mpdDivmod a b).2.isFinite ∧
        RoundsDown mpdCtx (a.value - truncate (a.value / b.value) * b.value)
          (mpdDivmod a b).2.value

export Divmod (mpdDivmod)

section Whole

variable [Libmpdec] [Divmod] {a b : Mpd}

/-- The remainder is zero where the division comes out even. -/
theorem mpdDivmod_even (fa : a.isFinite) (fb : b.isFinite) (nonzero : b.value ≠ 0)
    (grid : OnGrid mpdEtiny a.value) (grid' : OnGrid mpdEtiny b.value)
    (fits : |truncate (a.value / b.value)| < 10 ^ mpdPrec) :
    mpdCmp (mpdDivmod a b).2 mpdZero = 0 ↔
      (truncate (a.value / b.value) : ℚ) = a.value / b.value := by
  rcases Divmod.remainder fa fb nonzero fits with ⟨finite, rounds⟩
  have multiple : OnGrid mpdEtiny (truncate (a.value / b.value) * b.value) := by
    rcases grid' with ⟨k, same⟩
    exact ⟨truncate (a.value / b.value) * k, by rw [same, Int.cast_mul, mul_assoc]⟩
  rw [mpdCmp_eq_zero finite rfl, mpdZero_value, rounds.eq_zero_iff (grid.sub multiple),
    sub_eq_zero, eq_comm, eq_div_iff nonzero]

end Whole

/-- The division, from the exact quotient. -/
@[reducible]
def Divmod.reference : Divmod where
  mpdDivmod a b :=
    let q := truncate (a.value / b.value)
    if a.isFinite && b.isFinite && decide (b.value ≠ 0) && decide (|q| < 10 ^ mpdPrec) then
      (.ofScaled q 0, roundTo (min a.exponent b.exponent) (a.value - q * b.value))
    else (.nan, .nan)
  quotient fa fb nonzero fits := by
    simp only [fa, fb, nonzero, fits, ne_eq, not_false_eq_true, decide_true, Bool.and_self,
      if_true]
    exact ⟨rfl, by rw [Mpd.value_ofScaled, zpow_zero, mul_one]⟩
  remainder fa fb nonzero fits := by
    simp only [fa, fb, nonzero, fits, ne_eq, not_false_eq_true, decide_true, Bool.and_self,
      if_true]
    exact ⟨roundTo_isFinite _ _, roundTo_rounds _ _⟩

end ViabtcServer.Decimal
