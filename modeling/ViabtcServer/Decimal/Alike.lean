import ViabtcServer.Decimal.Libmpdec

/-!
# Values that compute alike

A number may be held with several exponents. The operations do not tell such
values apart, and what is computed from them is again alike.
-/

namespace ViabtcServer.Decimal

variable {a a' b b' c : Mpd}

/-- One special value, or two forms of one number. -/
def Mpd.Alike (a b : Mpd) : Prop :=
  a = b ∨ (a.isFinite = true ∧ b.isFinite = true ∧ a.value = b.value)

/-- 34 digits write the value. -/
def Mpd.Short (a : Mpd) : Prop :=
  a.isFinite = true → SigDigits mpdCtx a.value

theorem Mpd.Alike.refl (a : Mpd) : a.Alike a := Or.inl rfl

theorem Mpd.Alike.trans (one : a.Alike b) (two : b.Alike c) : a.Alike c := by
  rcases one with rfl | ⟨fa, fb, value⟩
  · exact two
  · rcases two with rfl | ⟨_, fc, value'⟩
    · exact Or.inr ⟨fa, fb, value⟩
    · exact Or.inr ⟨fa, fc, value.trans value'⟩

theorem Mpd.Alike.isFinite (alike : a.Alike b) : a.isFinite = b.isFinite := by
  rcases alike with rfl | ⟨fa, fb, _⟩
  · rfl
  · rw [fa, fb]

theorem Mpd.Alike.value (alike : a.Alike b) : a.value = b.value := by
  rcases alike with rfl | ⟨_, _, value⟩
  · rfl
  · exact value

theorem Mpd.short_zero : mpdZero.Short :=
  fun _ => mpdZero_value ▸ .zero

/-- What a special operand makes of a sum and a comparison: it is never a number, and
of the other operand no more than its value matters. -/
class SpecialValues [Libmpdec] : Prop where
  add_special : ∀ {a a' b b' : Mpd}, (a.isFinite && b.isFinite) = false → a.Alike a' →
    b.Alike b' → (mpdAdd a b).isFinite = false ∧ mpdAdd a b = mpdAdd a' b'
  cmp_special : ∀ {a a' b b' : Mpd}, (a.isFinite && b.isFinite) = false → a.Alike a' →
    b.Alike b' → mpdCmp a b = mpdCmp a' b'

section Operations

variable [Libmpdec]

theorem short_setString {text : String} (read : mpdSetString text = some a) : a.Short :=
  fun finite => Libmpdec.setString_digits read finite

variable [SpecialValues]

theorem Mpd.Alike.add (left : a.Alike a') (right : b.Alike b') :
    (mpdAdd a b).Alike (mpdAdd a' b') := by
  cases numbers : a.isFinite && b.isFinite with
  | false => exact Or.inl (SpecialValues.add_special numbers left right).2
  | true =>
      rcases (Bool.and_eq_true _ _).mp numbers with ⟨fa, fb⟩
      have fa' : a'.isFinite = true := left.isFinite ▸ fa
      have fb' : b'.isFinite = true := right.isFinite ▸ fb
      refine Or.inr ⟨Libmpdec.add_finite fa fb, Libmpdec.add_finite fa' fb', ?_⟩
      apply (Libmpdec.add_rounds fa fb).unique
      rw [left.value, right.value]
      exact Libmpdec.add_rounds fa' fb'

theorem Mpd.Alike.cmp (left : a.Alike a') (right : b.Alike b') : mpdCmp a b = mpdCmp a' b' := by
  cases numbers : a.isFinite && b.isFinite with
  | false => exact SpecialValues.cmp_special numbers left right
  | true =>
      rcases (Bool.and_eq_true _ _).mp numbers with ⟨fa, fb⟩
      rw [Libmpdec.cmp_finite fa fb,
        Libmpdec.cmp_finite (left.isFinite ▸ fa) (right.isFinite ▸ fb), left.value, right.value]

theorem short_add (a b : Mpd) : (mpdAdd a b).Short := by
  intro finite
  cases numbers : a.isFinite && b.isFinite with
  | false =>
      rw [(SpecialValues.add_special numbers (.refl a) (.refl b)).1] at finite
      cases finite
  | true =>
      rcases (Bool.and_eq_true _ _).mp numbers with ⟨fa, fb⟩
      exact (Libmpdec.add_rounds fa fb).sigDigits

end Operations

/-! ## Text -/

/-- Printing by libmpdec. -/
class DecimalText where
  /-- `mpd_to_sci (value, 0)`. -/
  mpdToSci : Mpd → String

export DecimalText (mpdToSci)

end ViabtcServer.Decimal
