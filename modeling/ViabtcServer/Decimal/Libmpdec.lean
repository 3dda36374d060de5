import ViabtcServer.Decimal.Truncation
import Mathlib.Data.Int.Log

/-!
# The decimal library

The engine computes with `mpd_t` values of libmpdec under one context,
`mpd_ctx`: 34 digits, the exponents of decimal128, rounding toward zero, no
traps. The library itself is not part of the repository. It enters as a
parameter, the operations the code calls together with the documented facts the
code relies on; `Libmpdec.reference` is one implementation of it.
-/

namespace ViabtcServer.Decimal

/-- The digits of `mpd_ctx`, set by `mpd_ieee_context (&mpd_ctx, MPD_DECIMAL128)`. -/
def mpdPrec : ℕ := 34

/-- The largest exponent of a leading digit. -/
def mpdEmax : ℤ := 6144

/-- The smallest and the largest exponent of a coefficient. -/
def mpdEtiny : ℤ := -6176

def mpdEtop : ℤ := mpdEmax - (mpdPrec - 1)

/-- `mpd_ctx`. With `MPD_ROUND_DOWN` too large a result is the largest number there is. -/
def mpdCtx : Context where
  prec := mpdPrec
  etiny := mpdEtiny
  etop := mpdEtop
  pos := by decide
  whole := by decide

/-- An `mpd_t`: a finite triple of sign, coefficient and exponent, or a special value. -/
inductive Mpd
  | finite (neg : Bool) (coeff : ℕ) (exp : ℤ)
  | infinity (neg : Bool)
  | nan
  deriving DecidableEq, Repr

namespace Mpd

/-- The number denoted by a finite value; special values denote no number. -/
def value : Mpd → ℚ
  | finite neg coeff exp => (if neg then -(coeff : ℚ) else coeff) * 10 ^ exp
  | infinity _ => 0
  | nan => 0

/-- `mpd_isfinite`. -/
def isFinite : Mpd → Bool
  | finite .. => true
  | _ => false

/-- `mpd_copy_negate`: the sign is flipped and nothing is rounded. -/
def negate : Mpd → Mpd
  | finite neg coeff exp => finite (!neg) coeff exp
  | infinity neg => infinity !neg
  | nan => nan

@[simp]
theorem value_negate (a : Mpd) : a.negate.value = -a.value := by
  cases a with
  | finite neg coeff exp => cases neg <;> simp [negate, value]
  | infinity neg => simp [negate, value]
  | nan => simp [negate, value]

/-- The value with coefficient and sign of `k` and exponent `e`. -/
def ofScaled (k e : ℤ) : Mpd :=
  finite (k < 0) k.natAbs e

/-- `mpd_set_i32`. -/
def ofInt (k : ℤ) : Mpd :=
  ofScaled k 0

@[simp]
theorem isFinite_ofScaled (k e : ℤ) : (ofScaled k e).isFinite = true := rfl

@[simp]
theorem value_ofScaled (k e : ℤ) : (ofScaled k e).value = k * 10 ^ e := by
  unfold ofScaled value
  by_cases neg : k < 0
  · have magnitude : ((k.natAbs : ℕ) : ℚ) = -k := by
      rw [Nat.cast_natAbs, abs_of_neg neg]
      push_cast
      rfl
    simp [neg, magnitude]
  · have magnitude : ((k.natAbs : ℕ) : ℚ) = k := by
      rw [Nat.cast_natAbs, abs_of_nonneg (not_lt.mp neg)]
    simp [neg, magnitude]

end Mpd

/-- `mpd_zero`. -/
def mpdZero : Mpd := .finite false 0 0

/-- `mpd_one`. -/
def mpdOne : Mpd := .finite false 1 0

/-- `mpd_ten`. -/
def mpdTen : Mpd := .finite false 10 0

@[simp] theorem mpdZero_isFinite : mpdZero.isFinite = true := rfl
@[simp] theorem mpdOne_isFinite : mpdOne.isFinite = true := rfl
@[simp] theorem mpdZero_value : mpdZero.value = 0 := by simp [mpdZero, Mpd.value]
@[simp] theorem mpdOne_value : mpdOne.value = 1 := by simp [mpdOne, Mpd.value]

/-- What a comparison with a NaN returns. -/
def intMax : ℤ := 2147483647

/-- The part of libmpdec the engine calls, under `mpd_ctx`. -/
class Libmpdec where
  /-- `mpd_set_string`; `none` is the status `MPD_Conversion_syntax`. -/
  mpdSetString : String → Option Mpd
  mpdCmp : Mpd → Mpd → ℤ
  mpdAdd : Mpd → Mpd → Mpd
  mpdSub : Mpd → Mpd → Mpd
  mpdMul : Mpd → Mpd → Mpd
  mpdDiv : Mpd → Mpd → Mpd
  mpdPow : Mpd → Mpd → Mpd
  mpdAbs : Mpd → Mpd
  mpdRescale : Mpd → ℤ → Mpd
  /-- A finite result of a conversion is rounded to the context. -/
  setString_digits : ∀ {text a}, mpdSetString text = some a → a.isFinite →
    SigDigits mpdCtx a.value
  /-- Finite values are compared exactly. -/
  cmp_finite : ∀ {a b}, a.isFinite → b.isFinite →
    mpdCmp a b = if a.value < b.value then -1 else if a.value = b.value then 0 else 1
  cmp_nan_left : ∀ b, mpdCmp .nan b = intMax
  cmp_nan_right : ∀ a, mpdCmp a .nan = intMax
  add_finite : ∀ {a b}, a.isFinite → b.isFinite → (mpdAdd a b).isFinite
  add_rounds : ∀ {a b}, a.isFinite → b.isFinite →
    RoundsDown mpdCtx (a.value + b.value) (mpdAdd a b).value
  sub_finite : ∀ {a b}, a.isFinite → b.isFinite → (mpdSub a b).isFinite
  sub_rounds : ∀ {a b}, a.isFinite → b.isFinite →
    RoundsDown mpdCtx (a.value - b.value) (mpdSub a b).value
  mul_finite : ∀ {a b}, a.isFinite → b.isFinite → (mpdMul a b).isFinite
  mul_rounds : ∀ {a b}, a.isFinite → b.isFinite →
    RoundsDown mpdCtx (a.value * b.value) (mpdMul a b).value
  div_finite : ∀ {a b}, a.isFinite → b.isFinite → b.value ≠ 0 → (mpdDiv a b).isFinite
  div_rounds : ∀ {a b}, a.isFinite → b.isFinite → b.value ≠ 0 →
    RoundsDown mpdCtx (a.value / b.value) (mpdDiv a b).value
  abs_finite : ∀ {a}, a.isFinite → (mpdAbs a).isFinite
  abs_rounds : ∀ {a}, a.isFinite → RoundsDown mpdCtx |a.value| (mpdAbs a).value
  /-- Rescaling gives the requested exponent, cuts toward zero and disregards
  the context precision. -/
  rescale_finite : ∀ {a} e, a.isFinite → ∃ neg coeff, mpdRescale a e = .finite neg coeff e
  rescale_value : ∀ {a} e, a.isFinite → (mpdRescale a e).value = truncateAt e a.value
  rescale_special : ∀ {a} e, a.isFinite = false → mpdRescale a e = a

export Libmpdec (mpdSetString mpdCmp mpdAdd mpdSub mpdMul mpdDiv mpdPow mpdAbs mpdRescale)

section Laws

variable [Libmpdec] {a b : Mpd}

theorem mpdCmp_lt_zero (fa : a.isFinite) (fb : b.isFinite) :
    mpdCmp a b < 0 ↔ a.value < b.value := by
  rw [Libmpdec.cmp_finite fa fb]
  split
  · simpa
  · split <;> simp_all

theorem mpdCmp_eq_zero (fa : a.isFinite) (fb : b.isFinite) :
    mpdCmp a b = 0 ↔ a.value = b.value := by
  rw [Libmpdec.cmp_finite fa fb]
  split
  · rename_i lt
    simpa using lt.ne
  · split <;> simp_all

theorem mpdCmp_gt_zero (fa : a.isFinite) (fb : b.isFinite) :
    0 < mpdCmp a b ↔ b.value < a.value := by
  rw [Libmpdec.cmp_finite fa fb]
  split
  · rename_i lt
    simpa using lt.le
  · split
    · simp_all
    · rename_i notLt notEq
      simpa using lt_of_le_of_ne (not_lt.mp notLt) (Ne.symm notEq)

theorem mpdCmp_le_zero (fa : a.isFinite) (fb : b.isFinite) :
    mpdCmp a b ≤ 0 ↔ a.value ≤ b.value := by
  rw [← not_lt, mpdCmp_gt_zero fa fb, not_lt]

theorem mpdCmp_ge_zero (fa : a.isFinite) (fb : b.isFinite) :
    0 ≤ mpdCmp a b ↔ b.value ≤ a.value := by
  rw [← not_lt, mpdCmp_lt_zero fa fb, not_lt]

theorem rescale_isFinite (e : ℤ) (fa : a.isFinite) : (mpdRescale a e).isFinite = true := by
  obtain ⟨neg, coeff, eq⟩ := Libmpdec.rescale_finite e fa
  rw [eq]
  rfl

/-- Rescaling changes nothing about which values are numbers. -/
theorem isFinite_rescale (e : ℤ) : (mpdRescale a e).isFinite = a.isFinite := by
  cases fa : a.isFinite with
  | true => exact rescale_isFinite e fa
  | false => rw [Libmpdec.rescale_special e fa, fa]

/-- A sum that the context can write is exact. -/
theorem mpdAdd_exact (fa : a.isFinite) (fb : b.isFinite)
    (digits : SigDigits mpdCtx (a.value + b.value)) :
    (mpdAdd a b).value = a.value + b.value :=
  (Libmpdec.add_rounds fa fb).eq_of_sigDigits digits

/-- The sum is exact precisely when the context can write it. -/
theorem mpdAdd_exact_iff (fa : a.isFinite) (fb : b.isFinite) :
    (mpdAdd a b).value = a.value + b.value ↔ SigDigits mpdCtx (a.value + b.value) :=
  ⟨fun exact => exact ▸ (Libmpdec.add_rounds fa fb).sigDigits, mpdAdd_exact fa fb⟩

theorem mpdSub_exact_iff (fa : a.isFinite) (fb : b.isFinite) :
    (mpdSub a b).value = a.value - b.value ↔ SigDigits mpdCtx (a.value - b.value) :=
  ⟨fun exact => exact ▸ (Libmpdec.sub_rounds fa fb).sigDigits,
    (Libmpdec.sub_rounds fa fb).eq_of_sigDigits⟩

theorem mpdMul_exact_iff (fa : a.isFinite) (fb : b.isFinite) :
    (mpdMul a b).value = a.value * b.value ↔ SigDigits mpdCtx (a.value * b.value) :=
  ⟨fun exact => exact ▸ (Libmpdec.mul_rounds fa fb).sigDigits,
    (Libmpdec.mul_rounds fa fb).eq_of_sigDigits⟩

theorem mpdAbs_exact (fa : a.isFinite) (digits : SigDigits mpdCtx a.value) :
    (mpdAbs a).value = |a.value| :=
  (Libmpdec.abs_rounds fa).eq_of_sigDigits digits.abs

end Laws

end ViabtcServer.Decimal
