import Mathlib.Algebra.Order.Field.Power
import Mathlib.Data.Rat.Floor
import Mathlib.Tactic.Linarith
import Mathlib.Tactic.Ring
import Mathlib.Tactic.Positivity
import Mathlib.Tactic.FieldSimp
import Mathlib.Tactic.NormNum

/-!
# Truncating decimal arithmetic

Numbers are rationals. A number lies on the grid of exponent `e` when it is an
integer multiple of `10 ^ e`; cutting digits moves a number to the next grid
point toward zero. A context has a number of digits and a range of exponents. It
keeps every number they can write and cuts all others to the next one toward
zero, also where a number is too large, or too small, for the exponents.
-/

namespace ViabtcServer.Decimal

/-- The integer part, toward zero. -/
def truncate (q : ℚ) : ℤ :=
  if 0 ≤ q then ⌊q⌋ else ⌈q⌉

/-- `q` is an integer multiple of `10 ^ e`. -/
def OnGrid (e : ℤ) (q : ℚ) : Prop :=
  ∃ k : ℤ, q = k * 10 ^ e

/-- Cut `q` toward zero to a multiple of `10 ^ e`. -/
def truncateAt (e : ℤ) (q : ℚ) : ℚ :=
  truncate (q / 10 ^ e) * 10 ^ e

/-- The first multiple of `10 ^ e` that is not below `q`. -/
def raiseAt (e : ℤ) (q : ℚ) : ℚ :=
  ⌈q / 10 ^ e⌉ * 10 ^ e

/-- `q` can be written with at most `p` digits after the point. A negative `p`
admits no number: a count of digits is a natural number. -/
def FracDigits (p : ℤ) (q : ℚ) : Prop :=
  ∃ n : ℕ, (n : ℤ) ≤ p ∧ OnGrid (-n) q

/-- How many digits a coefficient has, and which exponents there are. -/
structure Context where
  prec : ℕ
  etiny : ℤ
  etop : ℤ
  pos : 0 < prec
  whole : etiny ≤ 0 ∧ 0 ≤ etop

/-- `q` can be written with the digits and the exponents of the context. -/
def SigDigits (ctx : Context) (q : ℚ) : Prop :=
  ∃ c e : ℤ, |c| < 10 ^ ctx.prec ∧ ctx.etiny ≤ e ∧ e ≤ ctx.etop ∧ q = c * 10 ^ e

/-- `r` is the next number of the context from `q` toward zero. -/
structure RoundsDown (ctx : Context) (q r : ℚ) : Prop where
  sigDigits : SigDigits ctx r
  sign : 0 ≤ q * r
  below : |r| ≤ |q|
  next : ∀ {g}, SigDigits ctx g → |g| ≤ |q| → |g| ≤ |r|

private theorem ten_zpow_pos (e : ℤ) : (0 : ℚ) < 10 ^ e :=
  zpow_pos (by norm_num) e

private theorem ten_zpow_ne_zero (e : ℤ) : (10 : ℚ) ^ e ≠ 0 :=
  (ten_zpow_pos e).ne'

/-! ## Integer part -/

theorem truncate_intCast (k : ℤ) : truncate k = k := by
  unfold truncate
  split <;> simp

theorem truncate_of_nonneg {q : ℚ} (nonneg : 0 ≤ q) : truncate q = ⌊q⌋ :=
  if_pos nonneg

theorem truncate_neg (q : ℚ) : truncate (-q) = -truncate q := by
  unfold truncate
  rcases lt_trichotomy q 0 with neg | rfl | pos
  · rw [if_pos (by linarith), if_neg (by linarith), Int.floor_neg]
  · simp
  · rw [if_neg (by linarith), if_pos pos.le, Int.ceil_neg]

theorem truncate_nonneg {q : ℚ} (nonneg : 0 ≤ q) : 0 ≤ truncate q := by
  rw [truncate_of_nonneg nonneg]
  exact Int.floor_nonneg.mpr nonneg

theorem abs_truncate (q : ℚ) : |truncate q| = truncate |q| := by
  rcases le_total 0 q with nonneg | nonpos
  · rw [abs_of_nonneg (truncate_nonneg nonneg), abs_of_nonneg nonneg]
  · have flipped : 0 ≤ -q := by linarith
    rw [abs_of_nonpos nonpos, ← abs_neg (truncate q), ← truncate_neg,
      abs_of_nonneg (truncate_nonneg flipped)]

theorem truncate_le {q : ℚ} (nonneg : 0 ≤ q) : (truncate q : ℚ) ≤ q := by
  rw [truncate_of_nonneg nonneg]
  exact Int.floor_le q

theorem lt_truncate_add_one {q : ℚ} (nonneg : 0 ≤ q) : q < truncate q + 1 := by
  rw [truncate_of_nonneg nonneg]
  exact Int.lt_floor_add_one q

theorem le_truncate {q : ℚ} {k : ℤ} (nonneg : 0 ≤ q) (le : (k : ℚ) ≤ q) : k ≤ truncate q := by
  rw [truncate_of_nonneg nonneg]
  exact Int.le_floor.mpr le

theorem abs_truncate_le (q : ℚ) : |(truncate q : ℚ)| ≤ |q| := by
  rcases le_total 0 q with nonneg | nonpos
  · have lower : (0 : ℚ) ≤ truncate q := by exact_mod_cast truncate_nonneg nonneg
    rw [abs_of_nonneg nonneg, abs_of_nonneg lower]
    exact truncate_le nonneg
  · have flipped : 0 ≤ -q := by linarith
    have lower : (0 : ℚ) ≤ truncate (-q) := by exact_mod_cast truncate_nonneg flipped
    have upper := truncate_le flipped
    rw [truncate_neg] at lower upper
    push_cast at lower upper
    rw [abs_of_nonpos nonpos, abs_of_nonpos (by linarith)]
    exact upper

/-! ## The grid -/

theorem OnGrid.zero (e : ℤ) : OnGrid e 0 :=
  ⟨0, by simp⟩

theorem OnGrid.add {e : ℤ} {q r : ℚ} (hq : OnGrid e q) (hr : OnGrid e r) :
    OnGrid e (q + r) := by
  obtain ⟨k, rfl⟩ := hq
  obtain ⟨l, rfl⟩ := hr
  exact ⟨k + l, by push_cast; ring⟩

theorem OnGrid.neg {e : ℤ} {q : ℚ} (hq : OnGrid e q) : OnGrid e (-q) := by
  obtain ⟨k, rfl⟩ := hq
  exact ⟨-k, by push_cast; ring⟩

theorem OnGrid.sub {e : ℤ} {q r : ℚ} (hq : OnGrid e q) (hr : OnGrid e r) :
    OnGrid e (q - r) := by
  simpa [sub_eq_add_neg] using hq.add hr.neg

theorem OnGrid.mul {e f : ℤ} {q r : ℚ} (hq : OnGrid e q) (hr : OnGrid f r) :
    OnGrid (e + f) (q * r) := by
  obtain ⟨k, rfl⟩ := hq
  obtain ⟨l, rfl⟩ := hr
  refine ⟨k * l, ?_⟩
  rw [zpow_add₀ (by norm_num : (10 : ℚ) ≠ 0)]
  push_cast
  ring

/-- A coarser grid is part of every finer one. -/
theorem OnGrid.mono {e f : ℤ} {q : ℚ} (le : f ≤ e) (hq : OnGrid e q) : OnGrid f q := by
  obtain ⟨k, rfl⟩ := hq
  obtain ⟨n, rfl⟩ := Int.le.dest le
  refine ⟨k * 10 ^ n, ?_⟩
  rw [zpow_add₀ (by norm_num : (10 : ℚ) ≠ 0)]
  push_cast
  rw [zpow_natCast]
  ring

/-- A positive number on the grid is at least its unit. -/
theorem OnGrid.unit_le {e : ℤ} {q : ℚ} (hq : OnGrid e q) (pos : 0 < q) : 10 ^ e ≤ q := by
  obtain ⟨k, rfl⟩ := hq
  have unit := ten_zpow_pos e
  have coefficient : 0 < (k : ℚ) := pos_of_mul_pos_left pos unit.le
  have one_le : (1 : ℚ) ≤ k := by exact_mod_cast coefficient
  exact le_mul_of_one_le_left unit.le one_le

/-- A multiple of a power of ten that is below another one has a bounded coefficient. -/
theorem OnGrid.coefficient {e : ℤ} {n : ℕ} {q : ℚ} (grid : OnGrid e q)
    (small : |q| < 10 ^ (n + e)) : ∃ k : ℤ, |k| < 10 ^ n ∧ q = k * 10 ^ e := by
  rcases grid with ⟨k, rfl⟩
  refine ⟨k, ?_, rfl⟩
  rw [abs_mul, abs_of_pos (ten_zpow_pos e), zpow_add₀ (by norm_num : (10 : ℚ) ≠ 0),
    zpow_natCast] at small
  exact_mod_cast lt_of_mul_lt_mul_right small (ten_zpow_pos e).le

theorem truncateAt_onGrid (e : ℤ) (q : ℚ) : OnGrid e (truncateAt e q) :=
  ⟨truncate (q / 10 ^ e), rfl⟩

theorem truncateAt_of_onGrid {e : ℤ} {q : ℚ} (hq : OnGrid e q) : truncateAt e q = q := by
  obtain ⟨k, rfl⟩ := hq
  unfold truncateAt
  rw [mul_div_assoc, div_self (ten_zpow_ne_zero e), mul_one, truncate_intCast]

instance (e : ℤ) (q : ℚ) : Decidable (OnGrid e q) :=
  decidable_of_iff (truncateAt e q = q)
    ⟨fun same => same ▸ truncateAt_onGrid e q, truncateAt_of_onGrid⟩

theorem truncateAt_zero (e : ℤ) : truncateAt e 0 = 0 :=
  truncateAt_of_onGrid (OnGrid.zero e)

theorem truncateAt_nonneg {e : ℤ} {q : ℚ} (nonneg : 0 ≤ q) : 0 ≤ truncateAt e q := by
  have quotient : 0 ≤ q / 10 ^ e := div_nonneg nonneg (ten_zpow_pos e).le
  have part : (0 : ℚ) ≤ truncate (q / 10 ^ e) := by exact_mod_cast truncate_nonneg quotient
  exact mul_nonneg part (ten_zpow_pos e).le

theorem truncateAt_le {e : ℤ} {q : ℚ} (nonneg : 0 ≤ q) : truncateAt e q ≤ q := by
  have part := truncate_le (div_nonneg nonneg (ten_zpow_pos e).le)
  rwa [le_div_iff₀ (ten_zpow_pos e)] at part

theorem lt_truncateAt_add {e : ℤ} {q : ℚ} (nonneg : 0 ≤ q) :
    q < truncateAt e q + 10 ^ e := by
  have part := lt_truncate_add_one (div_nonneg nonneg (ten_zpow_pos e).le)
  rw [div_lt_iff₀ (ten_zpow_pos e)] at part
  unfold truncateAt
  linarith

/-- A grid point below `q` survives the cut. -/
theorem le_truncateAt {e : ℤ} {g q : ℚ} (nonneg : 0 ≤ q) (grid : OnGrid e g) (le : g ≤ q) :
    g ≤ truncateAt e q := by
  obtain ⟨k, rfl⟩ := grid
  have bound : (k : ℚ) ≤ q / 10 ^ e := by rwa [le_div_iff₀ (ten_zpow_pos e)]
  have part := le_truncate (div_nonneg nonneg (ten_zpow_pos e).le) bound
  unfold truncateAt
  have : (k : ℚ) ≤ truncate (q / 10 ^ e) := by exact_mod_cast part
  exact mul_le_mul_of_nonneg_right this (ten_zpow_pos e).le

theorem abs_truncateAt_le (e : ℤ) (q : ℚ) : |truncateAt e q| ≤ |q| := by
  have part := abs_truncate_le (q / 10 ^ e)
  rw [abs_div, abs_of_pos (ten_zpow_pos e), le_div_iff₀ (ten_zpow_pos e)] at part
  unfold truncateAt
  rwa [abs_mul, abs_of_pos (ten_zpow_pos e)]

theorem raiseAt_of_onGrid {e : ℤ} {q : ℚ} (hq : OnGrid e q) : raiseAt e q = q := by
  obtain ⟨k, rfl⟩ := hq
  unfold raiseAt
  rw [mul_div_assoc, div_self (ten_zpow_ne_zero e), mul_one, Int.ceil_intCast]

theorem le_raiseAt (e : ℤ) (q : ℚ) : q ≤ raiseAt e q := by
  have part := Int.le_ceil (q / 10 ^ e)
  rwa [div_le_iff₀ (ten_zpow_pos e)] at part

theorem raiseAt_lt_add (e : ℤ) (q : ℚ) : raiseAt e q < q + 10 ^ e := by
  have part := Int.ceil_lt_add_one (q / 10 ^ e)
  unfold raiseAt
  calc (⌈q / 10 ^ e⌉ : ℚ) * 10 ^ e < (q / 10 ^ e + 1) * 10 ^ e :=
        mul_lt_mul_of_pos_right part (ten_zpow_pos e)
    _ = q + 10 ^ e := by rw [add_mul, one_mul, div_mul_cancel₀ _ (ten_zpow_ne_zero e)]

/-- A grid point above `q` stays above after rounding up. -/
theorem raiseAt_le {e : ℤ} {g q : ℚ} (grid : OnGrid e g) (le : q ≤ g) : raiseAt e q ≤ g := by
  obtain ⟨k, rfl⟩ := grid
  have bound : q / 10 ^ e ≤ (k : ℚ) := by rwa [div_le_iff₀ (ten_zpow_pos e)]
  have : (⌈q / 10 ^ e⌉ : ℚ) ≤ k := by exact_mod_cast Int.ceil_le.mpr bound
  exact mul_le_mul_of_nonneg_right this (ten_zpow_pos e).le

/-- Adding to a grid point and cutting cuts what was added. -/
theorem truncateAt_add {e : ℤ} {g q : ℚ} (grid : OnGrid e g) (hg : 0 ≤ g) (hq : 0 ≤ q) :
    truncateAt e (g + q) = g + truncateAt e q := by
  obtain ⟨k, rfl⟩ := grid
  have quotient : 0 ≤ q / 10 ^ e := div_nonneg hq (ten_zpow_pos e).le
  have total : 0 ≤ (k * 10 ^ e + q) / 10 ^ e := div_nonneg (add_nonneg hg hq) (ten_zpow_pos e).le
  unfold truncateAt
  rw [truncate_of_nonneg total, truncate_of_nonneg quotient, add_div, mul_div_assoc,
    div_self (ten_zpow_ne_zero e), mul_one, Int.floor_intCast_add]
  push_cast
  ring

/-- Subtracting from a grid point and cutting subtracts the number rounded up. -/
theorem truncateAt_sub {e : ℤ} {g q : ℚ} (grid : OnGrid e g) (le : q ≤ g) :
    truncateAt e (g - q) = g - raiseAt e q := by
  obtain ⟨k, rfl⟩ := grid
  have total : 0 ≤ (k * 10 ^ e - q) / 10 ^ e :=
    div_nonneg (sub_nonneg.mpr le) (ten_zpow_pos e).le
  unfold truncateAt raiseAt
  rw [truncate_of_nonneg total, sub_div, mul_div_assoc, div_self (ten_zpow_ne_zero e), mul_one,
    sub_eq_add_neg, Int.floor_intCast_add, Int.floor_neg]
  push_cast
  ring

/-! ## Digits after the point -/

theorem fracDigits_iff {p : ℤ} {q : ℚ} : FracDigits p q ↔ 0 ≤ p ∧ OnGrid (-p) q := by
  constructor
  · rintro ⟨n, le, grid⟩
    exact ⟨by omega, grid.mono (by omega)⟩
  · rintro ⟨nonneg, grid⟩
    refine ⟨p.toNat, by omega, ?_⟩
    rwa [Int.toNat_of_nonneg nonneg]

instance (p : ℤ) (q : ℚ) : Decidable (FracDigits p q) :=
  decidable_of_iff _ fracDigits_iff.symm

theorem FracDigits.nonneg {p : ℤ} {q : ℚ} (hq : FracDigits p q) : 0 ≤ p :=
  (fracDigits_iff.mp hq).1

theorem FracDigits.onGrid {p : ℤ} {q : ℚ} (hq : FracDigits p q) : OnGrid (-p) q :=
  (fracDigits_iff.mp hq).2

theorem FracDigits.sub {p : ℤ} {q r : ℚ} (hq : FracDigits p q) (hr : FracDigits p r) :
    FracDigits p (q - r) :=
  fracDigits_iff.mpr ⟨hq.nonneg, hq.onGrid.sub hr.onGrid⟩

theorem FracDigits.mul {p s : ℤ} {q r : ℚ} (hq : FracDigits p q) (hr : FracDigits s r) :
    FracDigits (p + s) (q * r) := by
  refine fracDigits_iff.mpr ⟨add_nonneg hq.nonneg hr.nonneg, ?_⟩
  rw [neg_add]
  exact hq.onGrid.mul hr.onGrid

theorem FracDigits.mono {p s : ℤ} {q : ℚ} (le : p ≤ s) (hq : FracDigits p q) :
    FracDigits s q := by
  obtain ⟨n, bound, grid⟩ := hq
  exact ⟨n, bound.trans le, grid⟩

theorem FracDigits.truncateAt_eq {p : ℤ} {q : ℚ} (hq : FracDigits p q) :
    truncateAt (-p) q = q :=
  truncateAt_of_onGrid hq.onGrid

theorem FracDigits.raiseAt_eq {p : ℤ} {q : ℚ} (hq : FracDigits p q) : raiseAt (-p) q = q :=
  raiseAt_of_onGrid hq.onGrid

theorem fracDigits_truncateAt {p : ℤ} (nonneg : 0 ≤ p) (q : ℚ) :
    FracDigits p (truncateAt (-p) q) :=
  fracDigits_iff.mpr ⟨nonneg, truncateAt_onGrid _ _⟩

/-! ## Significant digits -/

section SigDigits

variable {ctx : Context} {e : ℤ} {g q r r' : ℚ}

theorem SigDigits.zero : SigDigits ctx 0 :=
  ⟨0, 0, by simp, ctx.whole.1, ctx.whole.2, by simp⟩

/-- No number of a context is off its finest grid. -/
theorem SigDigits.onGrid (digits : SigDigits ctx q) : OnGrid ctx.etiny q := by
  rcases digits with ⟨c, e, _, low, _, rfl⟩
  exact OnGrid.mono low ⟨c, rfl⟩

theorem SigDigits.neg (digits : SigDigits ctx q) : SigDigits ctx (-q) := by
  rcases digits with ⟨c, e, small, low, high, rfl⟩
  exact ⟨-c, e, by rwa [abs_neg], low, high, by push_cast; ring⟩

theorem SigDigits.abs (digits : SigDigits ctx q) : SigDigits ctx |q| := by
  rcases digits with ⟨c, e, small, low, high, rfl⟩
  refine ⟨|c|, e, by rwa [abs_abs], low, high, ?_⟩
  rw [abs_mul, abs_of_pos (ten_zpow_pos e), Int.cast_abs]

theorem SigDigits.of_whole (whole : q.den = 1 ∧ |q.num| < 10 ^ ctx.prec) : SigDigits ctx q := by
  refine ⟨q.num, 0, whole.2, ctx.whole.1, ctx.whole.2, ?_⟩
  rw [zpow_zero, mul_one]
  exact (Rat.den_eq_one_iff q).mp whole.1 |>.symm

/-- All numbers of a context are below a power of ten. -/
theorem SigDigits.abs_lt (digits : SigDigits ctx q) : |q| < 10 ^ ctx.prec * 10 ^ ctx.etop := by
  rcases digits with ⟨c, e, small, _, high, rfl⟩
  have coefficient : |(c : ℚ)| < 10 ^ ctx.prec := by exact_mod_cast small
  rw [abs_mul, abs_of_pos (ten_zpow_pos e)]
  exact mul_lt_mul coefficient (zpow_le_zpow_right₀ (by norm_num) high) (ten_zpow_pos e)
    (by positivity)

/-- Cutting digits after the point needs no further significant digit. -/
theorem SigDigits.truncateAt (digits : SigDigits ctx q) (e : ℤ) :
    SigDigits ctx (truncateAt e q) := by
  rcases digits with ⟨c, f, small, low, high, rfl⟩
  rcases le_or_gt e f with finer | coarser
  · rw [truncateAt_of_onGrid (OnGrid.mono finer ⟨c, rfl⟩)]
    exact ⟨c, f, small, low, high, rfl⟩
  · -- what is left is still a multiple of the old unit, and no larger
    rcases OnGrid.mono coarser.le (truncateAt_onGrid e ((c : ℚ) * 10 ^ f)) with ⟨k, cut⟩
    refine ⟨k, f, lt_of_le_of_lt ?_ small, low, high, cut⟩
    have shrinks := abs_truncateAt_le e ((c : ℚ) * 10 ^ f)
    rw [cut, abs_mul, abs_mul, abs_of_pos (ten_zpow_pos f)] at shrinks
    exact_mod_cast le_of_mul_le_mul_right shrinks (ten_zpow_pos f)

/-! ## Rounding -/

/-- A number of the context is not changed. -/
theorem RoundsDown.refl (digits : SigDigits ctx q) : RoundsDown ctx q q where
  sigDigits := digits
  sign := mul_self_nonneg q
  below := le_rfl
  next _ le := le

theorem RoundsDown.nonneg (rounds : RoundsDown ctx q r) (nonneg : 0 ≤ q) : 0 ≤ r := by
  rcases nonneg.eq_or_lt with rfl | pos
  · have below := rounds.below
    rw [abs_zero] at below
    exact (abs_nonpos_iff.mp below).ge
  · exact nonneg_of_mul_nonneg_right rounds.sign pos

theorem RoundsDown.le (rounds : RoundsDown ctx q r) (nonneg : 0 ≤ q) : r ≤ q := by
  have below := rounds.below
  rwa [abs_of_nonneg nonneg, abs_of_nonneg (rounds.nonneg nonneg)] at below

/-- Two results of one rounding have the same sign. -/
theorem RoundsDown.eq_of_abs (one : RoundsDown ctx q r) (other : RoundsDown ctx q r')
    (same : |r| = |r'|) : r = r' := by
  rcases abs_eq_abs.mp same with eq | opposite
  · exact eq
  · -- a number and its negative both go with `q`, so they are zero
    have sign := one.sign
    rw [opposite, mul_neg] at sign
    have zero : q * r' = 0 := le_antisymm (neg_nonneg.mp sign) other.sign
    rcases mul_eq_zero.mp zero with rfl | rfl
    · have below := one.below
      have below' := other.below
      rw [abs_zero] at below below'
      rw [abs_nonpos_iff.mp below, abs_nonpos_iff.mp below']
    · rw [opposite, neg_zero]

/-- Rounding has one result. -/
theorem RoundsDown.unique (one : RoundsDown ctx q r) (other : RoundsDown ctx q r') : r = r' :=
  one.eq_of_abs other
    (le_antisymm (other.next one.sigDigits one.below) (one.next other.sigDigits other.below))

theorem RoundsDown.eq_of_sigDigits (rounds : RoundsDown ctx q r) (digits : SigDigits ctx q) :
    r = q :=
  rounds.unique (.refl digits)

/-- No number of the context lies between a number and what it is cut to. -/
theorem RoundsDown.greatest (rounds : RoundsDown ctx q r) (digits : SigDigits ctx g)
    (nonneg : 0 ≤ q) (le : g ≤ q) : g ≤ r := by
  rcases le_total g 0 with nonpos | positive
  · exact nonpos.trans (rounds.nonneg nonneg)
  · have next := rounds.next digits
    rw [abs_of_nonneg positive, abs_of_nonneg nonneg, abs_of_nonneg (rounds.nonneg nonneg)] at next
    exact next le

/-- Cutting to the context first changes nothing where it can write what is left. -/
theorem RoundsDown.truncateAt_eq (rounds : RoundsDown ctx q r) (nonneg : 0 ≤ q)
    (fits : SigDigits ctx (truncateAt e q)) : truncateAt e r = truncateAt e q := by
  have nonneg' := rounds.nonneg nonneg
  apply le_antisymm
  · exact le_truncateAt nonneg (truncateAt_onGrid e r)
      ((truncateAt_le nonneg').trans (rounds.le nonneg))
  · apply le_truncateAt nonneg' (truncateAt_onGrid e q)
    exact rounds.greatest fits nonneg (truncateAt_le nonneg)

/-- A number does not become zero where its grid is one of the context. -/
theorem RoundsDown.eq_zero_iff (rounds : RoundsDown ctx q r) (grid : OnGrid ctx.etiny q) :
    r = 0 ↔ q = 0 := by
  constructor
  · rintro rfl
    by_contra nonzero
    have unit : SigDigits ctx (10 ^ ctx.etiny) := by
      refine ⟨1, ctx.etiny, ?_, le_rfl, ctx.whole.1.trans ctx.whole.2, by simp⟩
      rw [abs_one]
      exact one_lt_pow₀ (by norm_num) ctx.pos.ne'
    have large : (10 : ℚ) ^ ctx.etiny ≤ |q| := by
      rcases grid with ⟨k, rfl⟩
      have some_ : k ≠ 0 := by
        rintro rfl
        exact nonzero (by simp)
      rw [abs_mul, abs_of_pos (ten_zpow_pos _)]
      apply le_mul_of_one_le_left (ten_zpow_pos _).le
      exact_mod_cast Int.one_le_abs some_
    have next := rounds.next unit
    rw [abs_of_pos (ten_zpow_pos _), abs_zero] at next
    exact absurd (next large) (not_le.mpr (ten_zpow_pos _))
  · rintro rfl
    exact rounds.eq_of_sigDigits .zero

/-- A coefficient with all digits, or the least exponent, leaves nothing to be cut finer. -/
theorem RoundsDown.of_truncateAt (low : ctx.etiny ≤ e) (high : e ≤ ctx.etop)
    (fits : |truncate (q / 10 ^ e)| < 10 ^ ctx.prec)
    (full : e = ctx.etiny ∨ 10 ^ (ctx.prec - 1) ≤ |truncate (q / 10 ^ e)|) :
    RoundsDown ctx q (Decimal.truncateAt e q) where
  sigDigits := ⟨truncate (q / 10 ^ e), e, fits, low, high, rfl⟩
  sign := by
    rcases le_total 0 q with nonneg | nonpos
    · exact mul_nonneg nonneg (truncateAt_nonneg nonneg)
    · have cut := truncateAt_nonneg (e := e) (neg_nonneg.mpr nonpos)
      have same : Decimal.truncateAt e (-q) = -Decimal.truncateAt e q := by
        unfold Decimal.truncateAt
        rw [neg_div, truncate_neg]
        push_cast
        ring
      rw [same, neg_nonneg] at cut
      exact mul_nonneg_of_nonpos_of_nonpos nonpos cut
  below := abs_truncateAt_le e q
  next := by
    rintro g ⟨c, f, small, least, _, rfl⟩ le
    have unit := ten_zpow_pos e
    rcases le_or_gt e f with finer | coarser
    · -- a point of the grid below `q` survives the cut
      have grid : OnGrid e (|(c : ℚ)| * 10 ^ f) :=
        OnGrid.mono finer ⟨|c|, by push_cast; rfl⟩
      have cut : |Decimal.truncateAt e q| = Decimal.truncateAt e |q| := by
        unfold Decimal.truncateAt
        rw [abs_mul, abs_of_pos unit, ← Int.cast_abs, abs_truncate, abs_div, abs_of_pos unit]
      rw [abs_mul, abs_of_pos (ten_zpow_pos f)] at le ⊢
      rw [cut]
      exact le_truncateAt (abs_nonneg q) grid le
    · have digits : 10 ^ (ctx.prec - 1) ≤ |truncate (q / 10 ^ e)| := by
        rcases full with rfl | digits
        · exact absurd coarser (not_lt.mpr least)
        · exact digits
      unfold Decimal.truncateAt
      rw [abs_mul, abs_of_pos (ten_zpow_pos f), abs_mul, abs_of_pos unit]
      have coefficient : |(c : ℚ)| < 10 ^ ctx.prec := by exact_mod_cast small
      have part : (10 : ℚ) ^ (ctx.prec - 1) ≤ |(truncate (q / 10 ^ e) : ℚ)| := by
        exact_mod_cast digits
      have pos := ctx.pos
      calc |(c : ℚ)| * 10 ^ f ≤ 10 ^ ctx.prec * 10 ^ f :=
            mul_le_mul_of_nonneg_right coefficient.le (ten_zpow_pos f).le
        _ ≤ 10 ^ (ctx.prec - 1) * 10 ^ e := by
            rw [← zpow_natCast, ← zpow_natCast, ← zpow_add₀ (by norm_num),
              ← zpow_add₀ (by norm_num)]
            exact zpow_le_zpow_right₀ (by norm_num) (by omega)
        _ ≤ |(truncate (q / 10 ^ e) : ℚ)| * 10 ^ e := mul_le_mul_of_nonneg_right part unit.le

/-- The largest number of the context. -/
def Context.largest (ctx : Context) : ℤ :=
  10 ^ ctx.prec - 1

theorem Context.largest_nonneg (ctx : Context) : 0 ≤ ctx.largest :=
  sub_nonneg.mpr (one_le_pow₀ (by norm_num))

/-- A number that is too large becomes the largest one of its sign. -/
theorem RoundsDown.of_large (large : 10 ^ ctx.prec * 10 ^ ctx.etop ≤ |q|) {c : ℤ}
    (sign : 0 ≤ q * c) (coefficient : |c| = ctx.largest) :
    RoundsDown ctx q (c * 10 ^ ctx.etop) where
  sigDigits := by
    refine ⟨c, ctx.etop, ?_, ctx.whole.1.trans ctx.whole.2, le_rfl, rfl⟩
    rw [coefficient]
    exact sub_one_lt _
  sign := by
    rw [← mul_assoc]
    exact mul_nonneg sign (ten_zpow_pos _).le
  below := by
    have small : (|c| : ℚ) ≤ 10 ^ ctx.prec := by
      rw [← Int.cast_abs, coefficient]
      unfold Context.largest
      push_cast
      linarith
    rw [abs_mul, abs_of_pos (ten_zpow_pos _)]
    exact (mul_le_mul_of_nonneg_right small (ten_zpow_pos _).le).trans large
  next := by
    rintro g ⟨d, f, small, _, high, rfl⟩ _
    have most : (|d| : ℚ) ≤ |(c : ℚ)| := by
      rw [← Int.cast_abs, ← Int.cast_abs, coefficient]
      exact_mod_cast Int.le_sub_one_of_lt small
    rw [abs_mul, abs_mul, abs_of_pos (ten_zpow_pos f), abs_of_pos (ten_zpow_pos _)]
    exact mul_le_mul most (zpow_le_zpow_right₀ (by norm_num) high) (ten_zpow_pos f).le
      (abs_nonneg _)

end SigDigits

end ViabtcServer.Decimal
