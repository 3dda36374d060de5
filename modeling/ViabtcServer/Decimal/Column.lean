import ViabtcServer.Decimal.Libmpdec

/-!
# Decimal columns

A `DECIMAL(30,s)` column holds an integer number of units of `10 ^ -s`. A value
written to it as text is rounded to that many digits, half away from zero, and
refused when more than 30 digits are needed; what is read back is a text with
exactly `s` digits after the point.
-/

namespace ViabtcServer.Decimal

/-- The digits of every decimal column of the slice tables. -/
def columnDigits : ℕ := 30

/-- The units of `10 ^ -scale` nearest to `q`. -/
def columnRound (scale : ℕ) (q : ℚ) : ℤ :=
  if 0 ≤ q then ⌊q * 10 ^ scale + 1 / 2⌋ else ⌈q * 10 ^ scale - 1 / 2⌉

/-- The column after a value has been written to it; `none` is an error. -/
def storeDecimal (scale : ℕ) (a : Mpd) : Option ℤ :=
  if a.isFinite ∧ |columnRound scale a.value| < 10 ^ columnDigits then
    some (columnRound scale a.value)
  else none

/-- What `mpd_set_string` makes of the text of a column. -/
def readDecimal (scale : ℕ) (units : ℤ) : Mpd :=
  .ofScaled units (-scale)

/-- The column holds the number as it is. -/
def Fits (scale : ℕ) (q : ℚ) : Prop :=
  OnGrid (-scale) q ∧ |q| * 10 ^ scale < 10 ^ columnDigits

instance (scale : ℕ) (q : ℚ) : Decidable (Fits scale q) :=
  inferInstanceAs (Decidable (_ ∧ _))

variable {scale : ℕ} {a : Mpd} {q : ℚ} {units : ℤ}

@[simp]
theorem readDecimal_isFinite : (readDecimal scale units).isFinite = true := rfl

theorem readDecimal_value : (readDecimal scale units).value * 10 ^ scale = units := by
  have pos : (10 : ℚ) ^ scale ≠ 0 := by positivity
  rw [readDecimal, Mpd.value_ofScaled, zpow_neg, zpow_natCast, mul_assoc, inv_mul_cancel₀ pos,
    mul_one]

theorem readDecimal_onGrid : OnGrid (-scale) (readDecimal scale units).value :=
  ⟨units, Mpd.value_ofScaled units (-scale)⟩

/-- Whole units are not rounded. -/
theorem columnRound_of_units (whole : q * 10 ^ scale = units) : columnRound scale q = units := by
  have half : (0 : ℚ) ≤ 1 / 2 := by norm_num
  have less : (1 / 2 : ℚ) < 1 := by norm_num
  unfold columnRound
  rw [whole]
  split
  · rw [Int.floor_intCast_add, Int.floor_eq_zero_iff.mpr ⟨half, less⟩, add_zero]
  · rw [Int.ceil_eq_iff]
    constructor <;> linarith

theorem OnGrid.wholeUnits (grid : OnGrid (-scale) q) : ∃ units : ℤ, q * 10 ^ scale = units := by
  rcases grid with ⟨k, rfl⟩
  exact ⟨k, (congrArg (· * 10 ^ scale) (Mpd.value_ofScaled k (-scale)).symm).trans
    readDecimal_value⟩

/-- A value that fits comes back as it was. -/
theorem storeDecimal_of_fits (finite : a.isFinite) (fits : Fits scale a.value) :
    ∃ units, storeDecimal scale a = some units ∧ (readDecimal scale units).value = a.value := by
  rcases fits with ⟨grid, small⟩
  rcases grid.wholeUnits with ⟨units, whole⟩
  have pos : (0 : ℚ) < 10 ^ scale := by positivity
  have size : |units| < 10 ^ columnDigits := by
    rw [← abs_of_pos pos, ← abs_mul, whole] at small
    exact_mod_cast small
  refine ⟨units, ?_, ?_⟩
  · unfold storeDecimal
    rw [columnRound_of_units whole, if_pos ⟨finite, size⟩]
  · apply mul_right_cancel₀ pos.ne'
    rw [readDecimal_value, whole]

/-- A value that comes back as it was fits. -/
theorem fits_of_stored (stored : storeDecimal scale a = some units)
    (same : (readDecimal scale units).value = a.value) : Fits scale a.value := by
  unfold storeDecimal at stored
  split at stored
  · rename_i ok
    have rounded := Option.some.inj stored
    rw [rounded] at ok
    constructor
    · rw [← same]
      exact readDecimal_onGrid
    · have pos : (0 : ℚ) < 10 ^ scale := by positivity
      rw [← abs_of_pos pos, ← abs_mul, ← same, readDecimal_value]
      exact_mod_cast ok.2
  · cases stored

theorem storeDecimal_isFinite (stored : storeDecimal scale a = some units) :
    a.isFinite = true := by
  unfold storeDecimal at stored
  split at stored
  · rename_i ok
    exact ok.1
  · cases stored

/-- What fits a column has fewer digits than the context keeps. -/
theorem Fits.sigDigits (fits : Fits scale q) (within : scale ≤ columnDigits) :
    SigDigits mpdCtx q := by
  rcases fits with ⟨⟨units, rfl⟩, small⟩
  have least : mpdCtx.etiny = -6176 := rfl
  have columns : columnDigits = 30 := rfl
  refine ⟨units, -scale, ?_, by omega, (neg_nonpos.mpr (Nat.cast_nonneg _)).trans mpdCtx.whole.2,
    rfl⟩
  have pos : (0 : ℚ) < 10 ^ scale := by positivity
  have whole : ((units : ℚ) * 10 ^ (-(scale : ℤ))) * 10 ^ scale = units := by
    rw [← Mpd.value_ofScaled]
    exact readDecimal_value
  have size : |units| < 10 ^ columnDigits := by
    rw [← abs_of_pos pos, ← abs_mul, whole] at small
    exact_mod_cast small
  exact size.trans (by decide)

/-! ## Reading with a precision -/

section Read

variable [Libmpdec] {prec : ℤ}

/-- `decimal` on the text of a column. -/
def columnDecimal (scale : ℕ) (prec units : ℤ) : Mpd :=
  if prec ≠ 0 then mpdRescale (readDecimal scale units) (-prec) else readDecimal scale units

theorem columnDecimal_isFinite : (columnDecimal scale prec units).isFinite = true := by
  unfold columnDecimal
  split
  · exact rescale_isFinite _ readDecimal_isFinite
  · exact readDecimal_isFinite

/-- Digits the precision keeps are read as they are. -/
theorem columnDecimal_value (digits : OnGrid (-prec) (readDecimal scale units).value) :
    (columnDecimal scale prec units).value = (readDecimal scale units).value := by
  unfold columnDecimal
  split
  · rw [Libmpdec.rescale_value _ readDecimal_isFinite, truncateAt_of_onGrid digits]
  · rfl

omit [Libmpdec] in
/-- A value that fits is read as it was written. -/
theorem readDecimal_stored (stored : storeDecimal scale a = some units)
    (fits : Fits scale a.value) : (readDecimal scale units).value = a.value := by
  rcases storeDecimal_of_fits (storeDecimal_isFinite stored) fits with ⟨units', stored', same⟩
  rw [stored, Option.some.injEq] at stored'
  rwa [stored']

theorem columnDecimal_stored (stored : storeDecimal scale a = some units)
    (fits : Fits scale a.value) (digits : OnGrid (-prec) a.value) :
    (columnDecimal scale prec units).value = a.value := by
  have read := readDecimal_stored stored fits
  rw [columnDecimal_value (read ▸ digits), read]

/-- Without a precision the text is read as it is. -/
theorem columnDecimal_whole (stored : storeDecimal scale a = some units)
    (fits : Fits scale a.value) : (columnDecimal scale 0 units).value = a.value := by
  unfold columnDecimal
  rw [if_neg (by simp), readDecimal_stored stored fits]

/-- Cutting to the precision again changes nothing. -/
theorem truncateAt_columnDecimal (scale : ℕ) (prec units : ℤ) :
    truncateAt (-prec) (columnDecimal scale prec units).value =
      truncateAt (-prec) (readDecimal scale units).value := by
  unfold columnDecimal
  split
  · rw [Libmpdec.rescale_value _ readDecimal_isFinite,
      truncateAt_of_onGrid (truncateAt_onGrid _ _)]
  · rfl

omit [Libmpdec] in
/-- A value that comes back after it was cut to its own precision fits. -/
theorem fits_of_truncated (stored : storeDecimal scale a = some units)
    (digits : OnGrid (-prec) a.value)
    (same : truncateAt (-prec) (readDecimal scale units).value = a.value) :
    Fits scale a.value := by
  rcases le_total prec scale with coarse | fine
  · -- the column keeps all digits the value has
    have grid : OnGrid (-scale) a.value := digits.mono (neg_le_neg coarse)
    rcases grid.wholeUnits with ⟨units', whole⟩
    apply fits_of_stored stored
    unfold storeDecimal at stored
    split at stored
    · rw [columnRound_of_units whole, Option.some.injEq] at stored
      have pos : (10 : ℚ) ^ scale ≠ 0 := by positivity
      apply mul_right_cancel₀ pos
      rw [readDecimal_value, whole, stored]
    · cases stored
  · -- the precision keeps all digits the column has
    have grid : OnGrid (-prec) (readDecimal scale units).value :=
      readDecimal_onGrid.mono (neg_le_neg fine)
    rw [truncateAt_of_onGrid grid] at same
    exact fits_of_stored stored same

theorem fits_of_columnDecimal (stored : storeDecimal scale a = some units)
    (digits : OnGrid (-prec) a.value)
    (same : (columnDecimal scale prec units).value = a.value) : Fits scale a.value := by
  apply fits_of_truncated stored digits
  rw [← truncateAt_columnDecimal, same, truncateAt_of_onGrid digits]

/-- Without a precision the column alone decides. -/
theorem fits_of_whole (stored : storeDecimal scale a = some units)
    (same : (columnDecimal scale 0 units).value = a.value) : Fits scale a.value := by
  unfold columnDecimal at same
  rw [if_neg (by simp)] at same
  exact fits_of_stored stored same

end Read

end ViabtcServer.Decimal
