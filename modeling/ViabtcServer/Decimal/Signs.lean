import ViabtcServer.Decimal.Divmod

/-!
# Signs of numbers

A number has a sign of its own where it is zero. What rescaling gives depends on the value
and on the sign, and a sum has the sign of the true one when a summand is not negative: so
a change of a balance leaves the same balance, whatever the exponent it is written with.
-/

namespace ViabtcServer.Decimal

variable {a b b' : Mpd}

/-- `mpd_isnegative` of a number. -/
def Mpd.negative : Mpd → Bool
  | .finite neg _ _ => neg
  | _ => false

/-- The sign of a number that is not zero is that of its value. -/
theorem Mpd.negative_iff (finite : a.isFinite) (nonzero : a.value ≠ 0) :
    a.negative = true ↔ a.value < 0 := by
  cases a with
  | finite neg coeff exp =>
      have unit : (0 : ℚ) < 10 ^ exp := by positivity
      have natural : (0 : ℚ) ≤ coeff := Nat.cast_nonneg coeff
      cases neg with
      | false =>
          simp only [negative, value, Bool.false_eq_true, if_false, false_iff, not_lt]
          positivity
      | true =>
          simp only [negative, value, if_true, true_iff]
          have nonpos : -(coeff : ℚ) * 10 ^ exp ≤ 0 := by nlinarith
          exact lt_of_le_of_ne nonpos nonzero
  | infinity neg => cases finite
  | nan => cases finite

/-- What signs do, and what a special operand makes of a difference. -/
class SignedValues [Libmpdec] : Prop where
  sub_special : ∀ {a b b' : Mpd}, (a.isFinite && b.isFinite) = false → b.Alike b' →
    mpdSub a b = mpdSub a b'
  abs_negative : ∀ {a : Mpd}, a.isFinite → (mpdAbs a).negative = false
  add_negative : ∀ {a b : Mpd}, a.isFinite → b.isFinite → b.negative = false →
    (mpdAdd a b).negative = decide (a.value + b.value < 0)
  rescale_signed : ∀ {a b : Mpd} (e : ℤ), a.isFinite → b.isFinite → a.value = b.value →
    a.negative = b.negative → mpdRescale a e = mpdRescale b e

section Rescaled

variable [Libmpdec]

theorem Mpd.Alike.abs (alike : b.Alike b') : (mpdAbs b).Alike (mpdAbs b') := by
  rcases alike with rfl | ⟨fb, fb', value⟩
  · exact .refl _
  refine Or.inr ⟨Libmpdec.abs_finite fb, Libmpdec.abs_finite fb', ?_⟩
  apply (Libmpdec.abs_rounds fb).unique
  rw [value]
  exact Libmpdec.abs_rounds fb'

variable [SignedValues]

theorem Mpd.Alike.rescale (alike : b.Alike b') (e : ℤ)
    (zero : b.isFinite → b.value = 0 → b.negative = b'.negative) :
    mpdRescale b e = mpdRescale b' e := by
  rcases alike with rfl | ⟨fb, fb', value⟩
  · rfl
  apply SignedValues.rescale_signed e fb fb' value
  by_cases zero_ : b.value = 0
  · exact zero fb zero_
  · rw [Bool.eq_iff_iff, Mpd.negative_iff fb zero_, Mpd.negative_iff fb' (value ▸ zero_), value]

theorem Mpd.Alike.sub (alike : b.Alike b') : (mpdSub a b).Alike (mpdSub a b') := by
  cases numbers : a.isFinite && b.isFinite with
  | false => exact Or.inl (SignedValues.sub_special numbers alike)
  | true =>
      rcases (Bool.and_eq_true _ _).mp numbers with ⟨fa, fb⟩
      have fb' : b'.isFinite = true := alike.isFinite ▸ fb
      refine Or.inr ⟨Libmpdec.sub_finite fa fb, Libmpdec.sub_finite fa fb', ?_⟩
      apply (Libmpdec.sub_rounds fa fb).unique
      rw [alike.value]
      exact Libmpdec.sub_rounds fa fb'

variable [SpecialValues]

/-- A sum with a summand that is not negative, rescaled. -/
theorem Mpd.Alike.add_rescale (alike : b.Alike b') (a : Mpd) (e : ℤ)
    (sign : b.isFinite → b.negative = false) (sign' : b'.isFinite → b'.negative = false) :
    mpdRescale (mpdAdd a b) e = mpdRescale (mpdAdd a b') e := by
  cases numbers : a.isFinite && b.isFinite with
  | false => rw [(SpecialValues.add_special numbers (.refl a) alike).2]
  | true =>
      rcases (Bool.and_eq_true _ _).mp numbers with ⟨fa, fb⟩
      have fb' : b'.isFinite = true := alike.isFinite ▸ fb
      apply ((Mpd.Alike.refl a).add alike).rescale
      intro _ _
      rw [SignedValues.add_negative fa fb (sign fb), SignedValues.add_negative fa fb' (sign' fb'),
        alike.value]

end Rescaled

/-! ## The reference -/

section Special

attribute [local instance] Libmpdec.reference

theorem roundTo_negative (ideal : ℤ) (q : ℚ) : (roundTo ideal q).negative = decide (q < 0) := by
  unfold roundTo
  simp only
  split
  · rename_i fits
    have unit : (0 : ℚ) < 10 ^ max mpdEtiny (min mpdEtop ideal) := by positivity
    have same : (truncate (q / 10 ^ max mpdEtiny (min mpdEtop ideal)) : ℚ) *
        10 ^ max mpdEtiny (min mpdEtop ideal) = q := fits.1
    apply decide_eq_decide.mpr
    rw [← Int.cast_lt_zero (R := ℚ)]
    constructor
    · intro neg
      rw [← same]
      exact mul_neg_of_neg_of_pos neg unit
    · intro neg
      rw [← same] at neg
      exact neg_of_mul_neg_left neg unit.le
  · split <;> rfl

theorem signedValues_reference : SignedValues where
  sub_special special alike := (liftExact_special special (.refl _) alike).2
  abs_negative := by
    intro a fa
    simp only [mpdAbs, fa, if_true]
    rw [roundTo_negative]
    exact decide_eq_false (not_lt.mpr (abs_nonneg _))
  add_negative := by
    intro a b fa fb _
    simp only [mpdAdd, liftExact, fa, fb, Bool.and_self, if_true]
    exact roundTo_negative _ _
  rescale_signed := by
    intro a b e fa fb value _
    simp only [mpdRescale, referenceRescale, fa, fb, if_true, value]

end Special

end ViabtcServer.Decimal
