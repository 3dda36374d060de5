import ViabtcServer.Decimal.Scientific
import ViabtcServer.MarketPrice.Backed

/-!
# K-lines as text

A decimal is printed by `mpd_to_sci`, loses the zeros behind its point in
`rstripzero`, and is read by `mpd_set_string`. Nothing of its value is lost on the
way, as long as the context of the library can hold it.
-/

namespace ViabtcServer.MarketPrice

open Decimal

/-- libmpdec prints in scientific notation. -/
@[reducible]
def sciPrinting : DecimalText where
  mpdToSci a := String.ofList (sciText a)

attribute [local instance] sciPrinting

/-! ## Zeros behind the point -/

/-- The digits behind the point without the zeros at the end. -/
def stripDigits (frac : List Char) : List Char :=
  frac.rdropWhile (· = '0')

section Strip

variable {neg : Bool} {whole frac : List Char}

theorem not_mem_written {c : Char} (notDigit : c.isDigit = false) (notSign : c ≠ '-')
    (wholeDigits : ∀ c ∈ whole, c.isDigit = true) (fracDigits : ∀ c ∈ frac, c.isDigit = true)
    (mem : c ∈ written neg whole frac none) : c = '.' ∧ frac ≠ [] := by
  unfold written at mem
  rcases List.mem_append.mp mem with sign | mem
  · cases neg with
    | true => exact absurd (List.mem_singleton.mp sign) notSign
    | false => cases sign
  rcases List.mem_append.mp mem with inWhole | mem
  · rw [wholeDigits c inWhole] at notDigit
    cases notDigit
  rcases List.mem_append.mp mem with inFrac | mem
  · unfold pointChars at inFrac
    split at inFrac
    · cases inFrac
    · rename_i some_
      rcases List.mem_cons.mp inFrac with rfl | inFrac
      · exact ⟨rfl, some_⟩
      · rw [fracDigits c inFrac] at notDigit
        cases notDigit
  · cases mem

/-- A text with an exponent is left alone. -/
theorem rstripzero_expo {e : ℤ} :
    rstripzero (String.ofList (written neg whole frac (some e))) =
      String.ofList (written neg whole frac (some e)) := by
  unfold rstripzero
  rw [if_pos]
  simp [written, expoChars]

/-- Without one the zeros behind the point go. -/
theorem rstripzero_plain (wholeDigits : ∀ c ∈ whole, c.isDigit = true)
    (fracDigits : ∀ c ∈ frac, c.isDigit = true) :
    rstripzero (String.ofList (written neg whole frac none)) =
      String.ofList (written neg whole (stripDigits frac) none) := by
  have noExpo : 'e' ∉ written neg whole frac none := fun mem =>
    absurd (not_mem_written (by decide) (by decide) wholeDigits fracDigits mem).1 (by decide)
  unfold rstripzero
  rw [String.toList_ofList, if_neg (by simpa using noExpo)]
  by_cases none_ : frac = []
  · have noPoint : '.' ∉ written neg whole frac none := fun mem =>
      (not_mem_written (by decide) (by decide) wholeDigits fracDigits mem).2 none_
    rw [if_pos (by simpa using noPoint), none_]
    rfl
  · have point : written neg whole frac none = (signChars neg ++ whole) ++ '.' :: frac := by
      unfold written pointChars
      rw [if_neg none_, List.append_assoc]
      exact congrArg _ (congrArg _ (List.append_nil _))
    have strips : stripDigits frac = (frac.reverse.dropWhile (· = '0')).reverse := rfl
    rw [point, if_neg (by simp), List.reverse_append, List.reverse_cons, List.append_assoc,
      List.singleton_append, List.dropWhile_append]
    cases rest : frac.reverse.dropWhile (· = '0') with
    | nil =>
        rw [strips, rest]
        simp [written, pointChars, expoChars]
    | cons c rest' =>
        -- the last digit that stays
        have digit : c.isDigit = true := by
          apply fracDigits
          apply List.mem_reverse.mp
          apply List.dropWhile_subset (· = '0')
          rw [rest]
          exact List.mem_cons_self
        have notPoint : c ≠ '.' := by
          rintro rfl
          cases digit
        rw [strips, rest]
        simp only [List.isEmpty_cons, Bool.false_eq_true, if_false, List.cons_append]
        split
        · rename_i same
          exact absurd (List.cons.inj same).1 notPoint
        · simp [written, pointChars, expoChars]

theorem stripDigits_digits (fracDigits : ∀ c ∈ frac, c.isDigit = true) :
    ∀ c ∈ stripDigits frac, c.isDigit = true :=
  fun c mem => fracDigits c (List.IsPrefix.subset (List.rdropWhile_prefix _ frac) mem)

/-- The digits that go are zeros. -/
theorem stripDigits_eq (frac : List Char) :
    ∃ n, frac = stripDigits frac ++ List.replicate n '0' := by
  refine ⟨(frac.rtakeWhile (· = '0')).length, ?_⟩
  have zeros : frac.rtakeWhile (· = '0') =
      List.replicate (frac.rtakeWhile (· = '0')).length '0' := by
    apply List.eq_replicate_of_mem
    intro c mem
    simpa using List.mem_rtakeWhile_imp mem
  rw [← zeros]
  exact List.rdropWhile_append_rtakeWhile.symm

end Strip

/-! ## Values -/

theorem mpdText_eq (a : Mpd) : mpdText a = rstripzero (String.ofList (sciText a)) :=
  rfl

/-- The text of a number writes a number of the same value, with no more digits. -/
theorem numeral_mpdText (neg : Bool) (coeff : ℕ) (exp : ℤ) :
    ∃ coeff' exp', numeral (mpdText (.finite neg coeff exp)).toList =
        some (.finite neg coeff' exp') ∧
      coeff' ≤ coeff ∧ exp ≤ exp' ∧ (coeff' : ℚ) * 10 ^ exp' = coeff * 10 ^ exp := by
  rcases parts : sciParts coeff exp with ⟨whole, frac, expo⟩
  rcases sciParts_spec coeff exp parts with ⟨nonempty, wholeDigits, fracDigits, number, exponent⟩
  have text : sciText (.finite neg coeff exp) = written neg whole frac expo :=
    sciText_parts parts
  rw [mpdText_eq, text]
  cases expo with
  | some e =>
      refine ⟨coeff, exp, ?_, le_rfl, le_rfl, rfl⟩
      rw [rstripzero_expo, String.toList_ofList, ← text, numeral_sciText]
  | none =>
      rcases stripDigits_eq frac with ⟨n, zeros⟩
      have more : coeff = 10 ^ n * Nat.ofDigitChars 10 (whole ++ stripDigits frac) 0 := by
        rw [← number]
        nth_rewrite 1 [zeros]
        rw [← List.append_assoc, Nat.ofDigitChars_append, Nat.ofDigitChars_replicate_zero]
      have length : frac.length = (stripDigits frac).length + n := by
        nth_rewrite 1 [zeros]
        rw [List.length_append, List.length_replicate]
      rw [Option.getD_none] at exponent
      refine ⟨Nat.ofDigitChars 10 (whole ++ stripDigits frac) 0, -(stripDigits frac).length,
        ?_, ?_, ?_, ?_⟩
      · rw [rstripzero_plain wholeDigits fracDigits, String.toList_ofList,
          numeral_written nonempty wholeDigits (stripDigits_digits fracDigits), Option.getD_none,
          Int.zero_sub]
      · rw [more]
        exact Nat.le_mul_of_pos_left _ (Nat.pow_pos (Nat.succ_pos 9))
      · omega
      · have shift : -((stripDigits frac).length : ℤ) = exp + n := by omega
        rw [more, shift, zpow_add₀ (by norm_num : (10 : ℚ) ≠ 0), zpow_natCast]
        push_cast
        ring

/-- The numeric value of a text is kept. -/
theorem mpdText_value {a : Mpd} (finite : a.isFinite = true) :
    ∃ b, numeral (mpdText a).toList = some b ∧ b.isFinite = true ∧ b.value = a.value := by
  cases a with
  | finite neg coeff exp =>
      rcases numeral_mpdText neg coeff exp with ⟨coeff', exp', reads, _, _, same⟩
      refine ⟨_, reads, rfl, ?_⟩
      unfold Mpd.value
      simp only
      split
      · rw [neg_mul, neg_mul, same]
      · exact same
  | infinity | nan => cases finite

/-- What has lost its zeros loses nothing more. -/
theorem rstripzero_idempotent (a : Mpd) : rstripzero (mpdText a) = mpdText a := by
  cases a with
  | finite neg coeff exp =>
      rcases parts : sciParts coeff exp with ⟨whole, frac, expo⟩
      rcases sciParts_spec coeff exp parts with ⟨_, wholeDigits, fracDigits, _, _⟩
      rw [mpdText_eq, sciText_parts parts]
      cases expo with
      | some e => rw [rstripzero_expo, rstripzero_expo]
      | none =>
          rw [rstripzero_plain wholeDigits fracDigits,
            rstripzero_plain wholeDigits (stripDigits_digits fracDigits)]
          unfold stripDigits
          rw [List.rdropWhile_idempotent]
  | infinity neg => cases neg <;> decide
  | nan => decide

/-! ## Reading under the context -/

/-- A finite number `mpd_ctx` can hold. -/
def InContext : Mpd → Prop
  | .finite _ coeff exp =>
      coeff < 10 ^ mpdPrec ∧ mpdEtiny ≤ exp ∧ (coeff : ℚ) * 10 ^ exp < 10 ^ (mpdEmax + 1)
  | _ => False

/-- The numbers of a k-line. -/
def KlineInfo.values (info : KlineInfo) : List Mpd :=
  [info.open_, info.close, info.high, info.low, info.volume, info.deal]

/-- `mpd_set_string` reads the number a text writes, if the context can hold it. -/
def ReadsNumerals [Libmpdec] : Prop :=
  ∀ {text : String} {a : Mpd}, numeral text.toList = some a → InContext a →
    ∃ b, mpdSetString text = some b ∧ b.isFinite = true ∧ b.value = a.value

section Reads

variable [Libmpdec]

theorem decimal_mpdText (reads : ReadsNumerals) {a : Mpd} (inContext : InContext a) :
    ∃ b, decimal (mpdText a) = some b ∧ b.isFinite = true ∧ b.value = a.value := by
  cases a with
  | finite neg coeff exp =>
      rcases inContext with ⟨digits, tiny, large⟩
      rcases numeral_mpdText neg coeff exp with ⟨coeff', exp', numeral_, fewer, higher, same⟩
      have holds : InContext (.finite neg coeff' exp') :=
        ⟨lt_of_le_of_lt fewer digits, tiny.trans higher, same ▸ large⟩
      rcases reads numeral_ holds with ⟨b, read, finite, value⟩
      refine ⟨b, read, finite, value.trans ?_⟩
      unfold Mpd.value
      simp only
      split
      · rw [neg_mul, neg_mul, same]
      · exact same
  | infinity | nan => exact inContext.elim

/-- A k-line of numbers the context can hold is read as it was written; no zero that goes counts
for the value of a text, and none is left to go a second time. -/
theorem kline_text_round_trip (reads : ReadsNumerals) {info : KlineInfo}
    (inContext : ∀ a ∈ info.values, InContext a) :
    (∃ back, klineFromStr (klineToStr info) = some back ∧
      List.Forall₂ (fun b a => b.isFinite = true ∧ b.value = a.value) back.values info.values) ∧
    (∀ a : Mpd, a.isFinite = true → ∃ b, numeral (rstripzero (mpdToSci a)).toList = some b ∧
      b.isFinite = true ∧ b.value = a.value) ∧
    ∀ a : Mpd, rstripzero (rstripzero (mpdToSci a)) = rstripzero (mpdToSci a) := by
  refine ⟨?_, fun a => mpdText_value, rstripzero_idempotent⟩
  simp only [KlineInfo.values, List.forall_mem_cons] at inContext
  rcases inContext with ⟨open_, close, high, low, volume, deal, _⟩
  rcases decimal_mpdText reads open_ with ⟨open_', readOpen, sameOpen⟩
  rcases decimal_mpdText reads close with ⟨close', readClose, sameClose⟩
  rcases decimal_mpdText reads high with ⟨high', readHigh, sameHigh⟩
  rcases decimal_mpdText reads low with ⟨low', readLow, sameLow⟩
  rcases decimal_mpdText reads volume with ⟨volume', readVolume, sameVolume⟩
  rcases decimal_mpdText reads deal with ⟨deal', readDeal, sameDeal⟩
  refine ⟨⟨open_', close', high', low', volume', deal'⟩, ?_, ?_⟩
  · simp only [klineToStr, klineFromStr, readOpen, readClose, readHigh, readLow, readVolume,
      readDeal]
    rfl
  · exact .cons sameOpen (.cons sameClose (.cons sameHigh (.cons sameLow (.cons sameVolume
      (.cons sameDeal .nil)))))

end Reads

/-! ## The reference -/

/-- The digits of a number and its magnitude leave it a number of the context, with another
exponent where its own is too large. -/
theorem InContext.sigDigits {a : Mpd} (inContext : InContext a) : SigDigits mpdCtx a.value := by
  cases a with
  | finite neg coeff exp =>
      rcases inContext with ⟨digits, tiny, large⟩
      have unsigned : SigDigits mpdCtx ((coeff : ℚ) * 10 ^ exp) := by
        have most : mpdEmax = 6144 := rfl
        have top : mpdCtx.etop = 6111 := rfl
        have digits_ : ((mpdPrec : ℕ) : ℤ) = 34 := rfl
        by_cases high : exp ≤ mpdCtx.etop
        · refine ⟨coeff, exp, ?_, tiny, high, by rw [Int.cast_natCast]⟩
          rw [Nat.abs_cast]
          exact_mod_cast digits
        · have grid : OnGrid mpdCtx.etop ((coeff : ℚ) * 10 ^ exp) :=
            OnGrid.mono (le_of_not_ge high) ⟨coeff, by rw [Int.cast_natCast]⟩
          have below : |(coeff : ℚ) * 10 ^ exp| < 10 ^ ((mpdPrec : ℕ) + mpdCtx.etop) := by
            have places : mpdEmax + 1 = (mpdPrec : ℕ) + mpdCtx.etop := by omega
            rw [places] at large
            rw [abs_of_nonneg (mul_nonneg (Nat.cast_nonneg coeff) (zpow_pos (by norm_num) exp).le)]
            exact large
          rcases grid.coefficient below with ⟨k, small, same⟩
          exact ⟨k, mpdCtx.etop, small, mpdCtx.whole.1.trans mpdCtx.whole.2, le_rfl, same⟩
      unfold Mpd.value
      simp only
      split
      · rw [neg_mul]
        exact unsigned.neg
      · exact unsigned
  | infinity | nan => exact inContext.elim

/-- A text that writes a number is read as that number, cut to the context. -/
theorem readMpd_numeral {text : String} {neg : Bool} {coeff : ℕ} {exp : ℤ}
    (writes : numeral text.toList = some (.finite neg coeff exp)) :
    readMpd text = some (roundTo exp ((if neg then -(coeff : ℚ) else coeff) * 10 ^ exp)) := by
  unfold numeral at writes
  unfold readMpd
  rcases sign : readSign (text.toList.map Char.toLower) with ⟨neg', body⟩
  rw [sign] at writes
  simp only at writes ⊢
  split
  · cases writes
  · cases writes
  · cases writes
  · cases writes
  · unfold readFinite
    simp only
    split at writes
    · cases writes
    · rename_i some_
      rcases Option.map_eq_some_iff.mp writes with ⟨e, expo, same⟩
      rcases Mpd.finite.inj same with ⟨rfl, rfl, rfl⟩
      rw [if_neg some_, expo]
      rfl

/-- A number is read with the value of the text. -/
theorem readMpd_alike {text : String} {neg : Bool} {coeff coeff' : ℕ} {exp exp' : ℤ}
    (short : (Mpd.finite neg coeff exp).Short)
    (writes : numeral text.toList = some (.finite neg coeff' exp'))
    (same : (coeff' : ℚ) * 10 ^ exp' = coeff * 10 ^ exp) :
    ∃ read, readMpd text = some read ∧ read.Alike (.finite neg coeff exp) := by
  have value : (if neg then -(coeff' : ℚ) else coeff') * 10 ^ exp' =
      (Mpd.finite neg coeff exp).value := by
    unfold Mpd.value
    simp only
    split
    · rw [neg_mul, neg_mul, same]
    · exact same
  refine ⟨_, readMpd_numeral writes, Or.inr ⟨roundTo_isFinite _ _, rfl, ?_⟩⟩
  rw [value]
  exact (roundTo_rounds exp' _).eq_of_sigDigits (short rfl)

/-- Special values have no zeros to lose. -/
theorem readMpd_special {a : Mpd} (special : a.isFinite = false) :
    readMpd (mpdToSci a) = some a ∧ readMpd (mpdText a) = some a := by
  cases a with
  | finite => cases special
  | infinity neg => cases neg <;> decide +kernel
  | nan => decide +kernel

/-- Every value of the context is read as it is printed. -/
theorem printedText_sci : @PrintedText Libmpdec.reference sciPrinting := by
  refine @PrintedText.mk Libmpdec.reference sciPrinting ?_ ?_
  · intro a short
    show ∃ read, readMpd (mpdToSci a) = some read ∧ read.Alike a
    cases a with
    | finite neg coeff exp =>
        have writes := numeral_sciText neg coeff exp
        rw [← @String.toList_ofList (sciText _)] at writes
        exact readMpd_alike short writes rfl
    | infinity neg => exact ⟨.infinity neg, (readMpd_special rfl).1, .refl _⟩
    | nan => exact ⟨.nan, (readMpd_special rfl).1, .refl _⟩
  · intro a short
    show ∃ read, readMpd (mpdText a) = some read ∧ read.Alike a
    cases a with
    | finite neg coeff exp =>
        rcases numeral_mpdText neg coeff exp with ⟨coeff', exp', writes, _, _, same⟩
        exact readMpd_alike short writes same
    | infinity neg => exact ⟨.infinity neg, (readMpd_special rfl).2, .refl _⟩
    | nan => exact ⟨.nan, (readMpd_special rfl).2, .refl _⟩

theorem readsNumerals_reference : @ReadsNumerals Libmpdec.reference := by
  intro text a writes inContext
  cases a with
  | finite neg coeff exp =>
      refine ⟨_, readMpd_numeral writes, roundTo_isFinite _ _, ?_⟩
      exact (roundTo_rounds exp _).eq_of_sigDigits inContext.sigDigits
  | infinity | nan => exact inContext.elim

/-- One value in all places. -/
def flatKline (a : Mpd) : KlineInfo :=
  ⟨a, a, a, a, a, a⟩

theorem kline_text_round_trip_small :
    (∃ back, @klineFromStr Libmpdec.reference (klineToStr (flatKline (.finite false 1250 (-2)))) =
        some back ∧
      List.Forall₂ (fun b a => b.isFinite = true ∧ b.value = a.value) back.values
        (flatKline (.finite false 1250 (-2))).values) ∧
    (∀ a : Mpd, a.isFinite = true → ∃ b, numeral (rstripzero (mpdToSci a)).toList = some b ∧
      b.isFinite = true ∧ b.value = a.value) ∧
    ∀ a : Mpd, rstripzero (rstripzero (mpdToSci a)) = rstripzero (mpdToSci a) := by
  apply @kline_text_round_trip Libmpdec.reference readsNumerals_reference
  intro a mem
  have same : a = .finite false 1250 (-2) := by
    simpa [KlineInfo.values, flatKline] using mem
  have small : ((1250 : ℕ) : ℚ) * 10 ^ (-2 : ℤ) < 10 ^ (2 : ℤ) := by norm_num
  rw [same]
  exact ⟨by decide, by decide,
    small.trans_le (zpow_le_zpow_right₀ (by norm_num) (by decide : (2 : ℤ) ≤ mpdEmax + 1))⟩

/-- A power of ten beyond the context is not read as it was. -/
theorem kline_text_overflows :
    ¬ ∃ back, @klineFromStr Libmpdec.reference (klineToStr (flatKline (.finite false 1 7000))) =
        some back ∧ back.open_.isFinite = true ∧
      back.open_.value = (Mpd.finite false 1 7000).value := by
  rintro ⟨back, read, finite, value⟩
  unfold klineFromStr klineToStr at read
  simp only [Option.bind_eq_bind, Option.bind_eq_some_iff] at read
  rcases read with ⟨open_, readOpen, _, _, _, _, _, _, _, _, _, _, same⟩
  obtain rfl := Option.some.inj same
  have conversion : readMpd (mpdText (.finite false 1 7000)) = some open_ := readOpen
  have below := (readMpd_sigDigits conversion finite).abs_lt
  have exact_ : (Mpd.finite false 1 7000).value = 10 ^ (7000 : ℤ) := by
    simp only [Mpd.value, Bool.false_eq_true, if_false, Nat.cast_one, one_mul]
  have large : (10 : ℚ) ^ mpdCtx.prec * 10 ^ mpdCtx.etop ≤ 10 ^ (7000 : ℤ) := by
    rw [← zpow_natCast, ← zpow_add₀ (by norm_num)]
    exact zpow_le_zpow_right₀ (by norm_num) (by decide)
  rw [value, exact_, abs_of_pos (zpow_pos (by norm_num) _)] at below
  exact absurd large (not_le.mpr below)

end ViabtcServer.MarketPrice
