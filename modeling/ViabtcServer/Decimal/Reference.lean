import ViabtcServer.Decimal.Alike

/-!
# A reference implementation of the decimal library

`Libmpdec.reference` computes every result from the exact rational one. The
conversion reads the numeric strings of the General Decimal Arithmetic
specification, the special values included.
-/

namespace ViabtcServer.Decimal

/-- `q` with the exponent `ideal`, or the one of the context next to it, when 34 digits
allow it, else cut toward zero to the context. -/
def roundTo (ideal : ℤ) (q : ℚ) : Mpd :=
  let clamped := max mpdEtiny (min mpdEtop ideal)
  if truncateAt clamped q = q ∧ |truncate (q / 10 ^ clamped)| < 10 ^ mpdPrec then
    .ofScaled (truncate (q / 10 ^ clamped)) clamped
  else if mpdEmax < Int.log 10 |q| then .finite (q < 0) mpdCtx.largest.natAbs mpdEtop
  else
    let e := max mpdEtiny (Int.log 10 |q| - 33)
    .finite (q < 0) (truncate (q / 10 ^ e)).natAbs e

theorem roundTo_isFinite (ideal : ℤ) (q : ℚ) : (roundTo ideal q).isFinite = true := by
  unfold roundTo
  simp only
  split
  · rfl
  · split <;> rfl

/-- The value of a coefficient that has the sign of `q`. -/
theorem value_signed {q : ℚ} {k : ℤ} (e : ℤ) (nonneg : 0 ≤ q → 0 ≤ k) (neg : q < 0 → k ≤ 0) :
    (Mpd.finite (q < 0) k.natAbs e).value = k * 10 ^ e := by
  unfold Mpd.value
  by_cases below : q < 0
  · have magnitude : ((k.natAbs : ℕ) : ℚ) = -k := by
      rw [Nat.cast_natAbs, abs_of_nonpos (neg below), Int.cast_neg]
    simp [below, magnitude]
  · have magnitude : ((k.natAbs : ℕ) : ℚ) = k := by
      rw [Nat.cast_natAbs, abs_of_nonneg (nonneg (not_lt.mp below))]
    simp [below, magnitude]

theorem value_cut (e : ℤ) (q : ℚ) :
    (Mpd.finite (q < 0) (truncate (q / 10 ^ e)).natAbs e).value = truncateAt e q := by
  have unit : (0 : ℚ) < 10 ^ e := by positivity
  refine value_signed e (fun nonneg => truncate_nonneg (div_nonneg nonneg unit.le)) ?_
  intro neg
  have flipped : 0 ≤ -(q / 10 ^ e) := neg_nonneg.mpr (div_nonpos_of_nonpos_of_nonneg neg.le unit.le)
  have cut := truncate_nonneg flipped
  rw [truncate_neg] at cut
  exact neg_nonneg.mp cut

theorem value_largest (q : ℚ) :
    (Mpd.finite (q < 0) mpdCtx.largest.natAbs mpdEtop).value =
      ((if q < 0 then -mpdCtx.largest else mpdCtx.largest : ℤ) : ℚ) * 10 ^ mpdEtop := by
  have same : mpdCtx.largest.natAbs =
      (if q < 0 then -mpdCtx.largest else mpdCtx.largest : ℤ).natAbs := by
    split <;> rfl
  rw [same]
  apply value_signed mpdEtop
  · intro nonneg
    rw [if_neg (not_lt.mpr nonneg)]
    decide
  · intro neg
    rw [if_pos neg]
    decide

/-- A number with too many digits before the point is cut to the largest. -/
theorem largest_rounds {q : ℚ} (nonzero : q ≠ 0) (large : mpdEmax < Int.log 10 |q|) :
    RoundsDown mpdCtx q (Mpd.finite (q < 0) mpdCtx.largest.natAbs mpdEtop).value := by
  rw [value_largest]
  have places : (mpdPrec : ℤ) + mpdEtop = mpdEmax + 1 := by decide
  have digits : mpdCtx.prec = mpdPrec := rfl
  have exponent : mpdCtx.etop = mpdEtop := rfl
  apply RoundsDown.of_large
  · rw [digits, exponent, ← zpow_natCast, ← zpow_add₀ (by norm_num), places]
    exact (Int.zpow_le_iff_le_log (by norm_num) (abs_pos.mpr nonzero)).mpr large
  · split
    · rename_i neg
      apply mul_nonneg_of_nonpos_of_nonpos neg.le
      exact_mod_cast neg_nonpos.mpr mpdCtx.largest_nonneg
    · rename_i nonneg
      apply mul_nonneg (not_lt.mp nonneg)
      exact_mod_cast mpdCtx.largest_nonneg
  · split <;> decide

/-- Any other is cut to 34 digits, or where the exponents end. -/
theorem cut_rounds {q : ℚ} {e : ℤ} (nonzero : q ≠ 0) (small : Int.log 10 |q| ≤ mpdEmax)
    (exponent : e = max mpdEtiny (Int.log 10 |q| - 33)) :
    RoundsDown mpdCtx q (truncateAt e q) := by
  have magnitude : 0 < |q| := abs_pos.mpr nonzero
  have positive : (0 : ℚ) < 10 ^ e := zpow_pos (by norm_num) e
  have quotient : |q / 10 ^ e| = |q| / 10 ^ e := by
    rw [abs_div, abs_of_pos positive]
  have top : mpdEtop = 6111 := rfl
  have most : mpdEmax = 6144 := rfl
  have least : mpdEtiny = -6176 := rfl
  apply RoundsDown.of_truncateAt
  · exact exponent ▸ le_max_left _ _
  · change e ≤ mpdEtop
    omega
  · have upper : |q| < (10 : ℚ) ^ mpdPrec * 10 ^ e := by
      refine lt_of_lt_of_le (Int.lt_zpow_succ_log_self (by norm_num : 1 < 10) |q|) ?_
      rw [← zpow_natCast, ← zpow_add₀ (by norm_num)]
      have digits : ((mpdPrec : ℕ) : ℤ) = 34 := rfl
      exact_mod_cast zpow_le_zpow_right₀ (by norm_num : (1 : ℚ) ≤ 10) (by omega)
    have below : |q / 10 ^ e| < 10 ^ mpdPrec := by
      rw [quotient, div_lt_iff₀ positive]
      exact upper
    have cut := lt_of_le_of_lt (abs_truncate_le (q / 10 ^ e)) below
    exact_mod_cast cut
  · rcases max_choice mpdEtiny (Int.log 10 |q| - 33) with tiny | full
    · exact Or.inl (exponent.trans tiny)
    · right
      have lower : (10 : ℚ) ^ (33 : ℕ) * 10 ^ e ≤ |q| := by
        refine le_trans ?_ (Int.zpow_log_le_self (by norm_num : 1 < 10) magnitude)
        rw [← zpow_natCast, ← zpow_add₀ (by norm_num)]
        exact_mod_cast zpow_le_zpow_right₀ (by norm_num : (1 : ℚ) ≤ 10) (by omega)
      change 10 ^ 33 ≤ |truncate (q / 10 ^ e)|
      rw [abs_truncate]
      refine le_truncate (abs_nonneg _) ?_
      rw [quotient, le_div_iff₀ positive]
      exact_mod_cast lower

theorem roundTo_rounds (ideal : ℤ) (q : ℚ) : RoundsDown mpdCtx q (roundTo ideal q).value := by
  unfold roundTo
  simp only
  split
  · rename_i fits
    rw [Mpd.value_ofScaled, ← truncateAt, fits.1]
    refine .refl ⟨_, _, fits.2, le_max_left _ _, ?_, fits.1.symm⟩
    exact max_le (by decide) (min_le_left _ _)
  · rename_i other
    have nonzero : q ≠ 0 := by
      rintro rfl
      exact other ⟨truncateAt_zero _, by simp [truncate, mpdPrec]⟩
    split
    · rename_i large
      exact largest_rounds nonzero large
    · rename_i small
      rw [value_cut]
      exact cut_rounds nonzero (not_lt.mp small) rfl

namespace Mpd

/-- The exponent of a finite value. -/
def exponent : Mpd → ℤ
  | finite _ _ exp => exp
  | _ => 0

/-- The place of a value in the numeric order, special values outermost. -/
def rank : Mpd → ℤ
  | infinity true => -1
  | infinity false => 1
  | _ => 0

end Mpd

/-! ## Operations -/

/-- Apply an exact operation to two numbers; special operands give a NaN. -/
def liftExact (op : ℚ → ℚ → ℚ) (ideal : ℤ → ℤ → ℤ) (a b : Mpd) : Mpd :=
  if a.isFinite && b.isFinite then
    roundTo (ideal a.exponent b.exponent) (op a.value b.value)
  else .nan

theorem liftExact_isFinite {op : ℚ → ℚ → ℚ} {ideal : ℤ → ℤ → ℤ} {a b : Mpd}
    (fa : a.isFinite) (fb : b.isFinite) : (liftExact op ideal a b).isFinite = true := by
  simp [liftExact, fa, fb, roundTo_isFinite]

theorem liftExact_rounds {op : ℚ → ℚ → ℚ} {ideal : ℤ → ℤ → ℤ} {a b : Mpd}
    (fa : a.isFinite) (fb : b.isFinite) :
    RoundsDown mpdCtx (op a.value b.value) (liftExact op ideal a b).value := by
  simpa [liftExact, fa, fb] using roundTo_rounds _ _

/-- A NaN compares as `INT_MAX`; infinities lie beyond every number. -/
def referenceCmp (a b : Mpd) : ℤ :=
  if a = .nan ∨ b = .nan then intMax
  else if a.rank < b.rank then -1
  else if b.rank < a.rank then 1
  else if a.value < b.value then -1
  else if a.value = b.value then 0
  else 1

def referenceRescale (a : Mpd) (e : ℤ) : Mpd :=
  if a.isFinite then .ofScaled (truncate (a.value / 10 ^ e)) e else a

/-! ## Conversion of text -/

def digitValue (c : Char) : Option ℕ :=
  if '0' ≤ c ∧ c ≤ '9' then some (c.toNat - '0'.toNat) else none

/-- Read leading digits onto `acc`: the number read, how many digits, the rest. -/
def readDigits : List Char → ℕ → ℕ → ℕ × ℕ × List Char
  | [], acc, count => (acc, count, [])
  | c :: rest, acc, count =>
      match digitValue c with
      | some d => readDigits rest (10 * acc + d) (count + 1)
      | none => (acc, count, c :: rest)

/-- An optional sign; `true` is a minus. -/
def readSign : List Char → Bool × List Char
  | '-' :: rest => (true, rest)
  | '+' :: rest => (false, rest)
  | text => (false, text)

/-- The exponent part: nothing, or `e` with an optional sign and digits. -/
def readExponent : List Char → Option ℤ
  | [] => some 0
  | 'e' :: text =>
      let (neg, digits) := readSign text
      match readDigits digits 0 0 with
      | (_, 0, _) => none
      | (n, _, []) => some (if neg then -(n : ℤ) else n)
      | _ => none
  | _ => none

/-- The digits after a point, read onto the whole part. -/
def readFraction (whole : ℕ) : List Char → ℕ × ℕ × List Char
  | '.' :: fraction => readDigits fraction whole 0
  | rest => (whole, 0, rest)

def readFinite (neg : Bool) (text : List Char) : Option Mpd :=
  let whole := readDigits text 0 0
  let body := readFraction whole.1 whole.2.2
  if whole.2.1 + body.2.1 = 0 then none
  else
    (readExponent body.2.2).map fun exp =>
      roundTo (exp - body.2.1)
        ((if neg then -(body.1 : ℚ) else body.1) * 10 ^ (exp - (body.2.1 : ℤ)))

/-- A NaN payload is a possibly empty run of digits. -/
def isPayload (text : List Char) : Bool :=
  text.all fun c => (digitValue c).isSome

def readMpd (text : String) : Option Mpd :=
  let (neg, body) := readSign (text.toList.map Char.toLower)
  match body with
  | ['i', 'n', 'f'] => some (.infinity neg)
  | ['i', 'n', 'f', 'i', 'n', 'i', 't', 'y'] => some (.infinity neg)
  | 'n' :: 'a' :: 'n' :: payload => if isPayload payload then some .nan else none
  | 's' :: 'n' :: 'a' :: 'n' :: payload => if isPayload payload then some .nan else none
  | _ => readFinite neg body

theorem readFinite_sigDigits {neg : Bool} {text : List Char} {a : Mpd}
    (read : readFinite neg text = some a) : SigDigits mpdCtx a.value := by
  unfold readFinite at read
  simp only at read
  split at read
  · contradiction
  · obtain ⟨exp, _, rfl⟩ := Option.map_eq_some_iff.mp read
    exact (roundTo_rounds _ _).sigDigits

theorem readMpd_sigDigits {text : String} {a : Mpd} (read : readMpd text = some a)
    (finite : a.isFinite) : SigDigits mpdCtx a.value := by
  unfold readMpd at read
  simp only at read
  split at read
  · cases read
    contradiction
  · cases read
    contradiction
  · split at read <;> cases read
    contradiction
  · split at read <;> cases read
    contradiction
  · exact readFinite_sigDigits read

/-! ## Reading what is printed -/

theorem digitValue_of_isDigit {c : Char} (digit : c.isDigit = true) :
    digitValue c = some (c.toNat - '0'.toNat) := by
  unfold digitValue
  rw [if_pos]
  simpa [Char.isDigit, Char.le_def] using digit

/-- Digits are read up to a character that is none. -/
theorem readDigits_append {digits rest : List Char} (all : ∀ c ∈ digits, c.isDigit = true)
    (stop : ∀ c ∈ rest.head?, digitValue c = none) (acc count : ℕ) :
    readDigits (digits ++ rest) acc count =
      (Nat.ofDigitChars 10 digits acc, count + digits.length, rest) := by
  induction digits generalizing acc count with
  | nil =>
      cases rest with
      | nil => rfl
      | cons c rest =>
          rw [List.nil_append, readDigits, stop c rfl]
          rfl
  | cons c digits ih =>
      rw [List.cons_append, readDigits, digitValue_of_isDigit (all c List.mem_cons_self)]
      simp only
      rw [ih fun d mem => all d (List.mem_cons_of_mem _ mem), Nat.ofDigitChars_cons,
        List.length_cons, Nat.add_assoc, Nat.add_comm 1]

theorem isDigit_toDigits (n : ℕ) : ∀ c ∈ Nat.toDigits 10 n, c.isDigit = true :=
  fun _ mem => Nat.isDigit_of_mem_toDigits (by decide) (by decide) mem

theorem readDigits_toDigits (n : ℕ) {rest : List Char}
    (stop : ∀ c ∈ rest.head?, digitValue c = none) :
    readDigits (Nat.toDigits 10 n ++ rest) 0 0 = (n, (Nat.toDigits 10 n).length, rest) := by
  rw [readDigits_append (isDigit_toDigits n) stop, Nat.ofDigitChars_ten_toDigits, Nat.zero_add]

/-- A sign in front of a number. -/
def signChars (neg : Bool) : List Char :=
  if neg then ['-'] else []

theorem readSign_signChars (neg : Bool) {c : Char} {text : List Char} (digit : c.isDigit = true) :
    readSign (signChars neg ++ c :: text) = (neg, c :: text) := by
  cases neg with
  | true => rfl
  | false =>
      simp only [signChars, Bool.false_eq_true, if_false, List.nil_append]
      unfold readSign
      split
      · rename_i same
        rw [(List.cons.inj same).1] at digit
        cases digit
      · rename_i same
        rw [(List.cons.inj same).1] at digit
        cases digit
      · rfl

theorem toDigits_cons (n : ℕ) : ∃ c text, Nat.toDigits 10 n = c :: text ∧ c.isDigit = true := by
  rcases List.exists_cons_of_ne_nil (@Nat.toDigits_ne_nil n 10) with ⟨c, text, same⟩
  refine ⟨c, text, same, isDigit_toDigits n c ?_⟩
  rw [same]
  exact List.mem_cons_self

/-- An exponent that is not zero. -/
def exponentChars (exp : ℤ) : List Char :=
  if exp = 0 then [] else 'e' :: (signChars (exp < 0) ++ Nat.toDigits 10 exp.natAbs)

theorem readExponent_exponentChars (exp : ℤ) : readExponent (exponentChars exp) = some exp := by
  unfold exponentChars
  by_cases zero : exp = 0
  · rw [if_pos zero, zero]
    rfl
  · rcases toDigits_cons exp.natAbs with ⟨c, text, same, digit⟩
    have digits := @readDigits_toDigits exp.natAbs [] nofun
    rw [List.append_nil, same, List.length_cons] at digits
    rw [if_neg zero, readExponent, same, readSign_signChars _ digit]
    simp only [digits]
    congr 1
    by_cases neg : exp < 0
    · simp only [neg, decide_true, if_true]
      omega
    · simp only [neg, decide_false, Bool.false_eq_true, if_false]
      omega

/-- A number is read as it is printed. -/
theorem readFinite_printed (neg : Bool) (coeff : ℕ) (exp : ℤ) :
    readFinite neg (Nat.toDigits 10 coeff ++ exponentChars exp) =
      some (roundTo exp ((if neg then -(coeff : ℚ) else coeff) * 10 ^ exp)) := by
  have stop : ∀ c ∈ (exponentChars exp).head?, digitValue c = none := by
    intro c first
    unfold exponentChars at first
    split at first
    · cases first
    · obtain rfl := Option.some.inj first
      rfl
  have point : readFraction coeff (exponentChars exp) = (coeff, 0, exponentChars exp) := by
    unfold exponentChars
    split <;> rfl
  unfold readFinite
  simp only [readDigits_toDigits coeff stop, point, readExponent_exponentChars]
  rw [if_neg (by simp)]
  simp

theorem toLower_of_isDigit {c : Char} (digit : c.isDigit = true) : c.toLower = c := by
  unfold Char.toLower
  rw [dif_neg]
  simp only [Char.isDigit, Bool.and_eq_true, decide_eq_true_eq] at digit
  rintro ⟨above, _⟩
  exact absurd (UInt32.le_trans above digit.2) (by decide)

/-- A number is read as it is printed, its sign included. -/
theorem readMpd_printed (neg : Bool) (coeff : ℕ) (exp : ℤ) :
    readMpd (String.ofList (signChars neg ++ (Nat.toDigits 10 coeff ++ exponentChars exp))) =
      some (roundTo exp ((if neg then -(coeff : ℚ) else coeff) * 10 ^ exp)) := by
  have lower : (signChars neg ++ (Nat.toDigits 10 coeff ++ exponentChars exp)).map Char.toLower =
      signChars neg ++ (Nat.toDigits 10 coeff ++ exponentChars exp) := by
    have sign (neg : Bool) : (signChars neg).map Char.toLower = signChars neg := by
      cases neg <;> rfl
    have digits (n : ℕ) : (Nat.toDigits 10 n).map Char.toLower = Nat.toDigits 10 n :=
      (List.map_congr_left fun c mem => toLower_of_isDigit (isDigit_toDigits n c mem)).trans
        (List.map_id _)
    have exponent : (exponentChars exp).map Char.toLower = exponentChars exp := by
      unfold exponentChars
      split
      · rfl
      · rw [List.map_cons, List.map_append, sign, digits]
        rfl
    rw [List.map_append, List.map_append, sign, digits, exponent]
  rcases toDigits_cons coeff with ⟨c, text, same, digit⟩
  unfold readMpd
  simp only [String.toList_ofList, lower]
  rw [← readFinite_printed, same, List.cons_append, readSign_signChars neg digit]
  simp only
  split
  -- a text that begins with a digit is not the name of a special value
  all_goals first
    | rfl
    | rename_i name
      rw [(List.cons.inj name).1] at digit
      cases digit

/-! ## The instance -/

theorem referenceCmp_finite {a b : Mpd} (fa : a.isFinite) (fb : b.isFinite) :
    referenceCmp a b = if a.value < b.value then -1 else if a.value = b.value then 0 else 1 := by
  cases a <;> simp_all [Mpd.isFinite]
  cases b <;> simp_all [referenceCmp, Mpd.rank]

/-- Every result computed from the exact one. -/
@[reducible]
def Libmpdec.reference : Libmpdec where
  mpdSetString := readMpd
  mpdCmp := referenceCmp
  mpdAdd := liftExact (· + ·) min
  mpdSub := liftExact (· - ·) min
  mpdMul := liftExact (· * ·) (· + ·)
  mpdDiv := liftExact (· / ·) (· - ·)
  mpdPow a b := liftExact (fun x y => x ^ y.num) (fun e f => e * f) a b
  mpdAbs a := if a.isFinite then roundTo a.exponent |a.value| else a
  mpdRescale := referenceRescale
  setString_digits := readMpd_sigDigits
  cmp_finite := referenceCmp_finite
  cmp_nan_left b := by simp [referenceCmp]
  cmp_nan_right a := by simp [referenceCmp]
  add_finite := liftExact_isFinite
  add_rounds := liftExact_rounds
  sub_finite := liftExact_isFinite
  sub_rounds := liftExact_rounds
  mul_finite := liftExact_isFinite
  mul_rounds := liftExact_rounds
  div_finite fa fb _ := liftExact_isFinite fa fb
  div_rounds fa fb _ := liftExact_rounds fa fb
  abs_finite := by
    intro a fa
    simp [fa, roundTo_isFinite]
  abs_rounds := by
    intro a fa
    simpa [fa] using roundTo_rounds _ _
  rescale_finite := by
    intro a e fa
    simp only [referenceRescale, fa, if_true]
    exact ⟨_, _, rfl⟩
  rescale_value := by
    intro a e fa
    simp [referenceRescale, fa, truncateAt]
  rescale_special := by
    intro a e special
    simp [referenceRescale, special]

section Special

attribute [local instance] Libmpdec.reference

theorem liftExact_special {op : ℚ → ℚ → ℚ} {ideal : ℤ → ℤ → ℤ} {a a' b b' : Mpd}
    (special : (a.isFinite && b.isFinite) = false) (left : a.Alike a') (right : b.Alike b') :
    (liftExact op ideal a b).isFinite = false ∧
      liftExact op ideal a b = liftExact op ideal a' b' := by
  have special' : (a'.isFinite && b'.isFinite) = false := by
    rw [← left.isFinite, ← right.isFinite]
    exact special
  unfold liftExact
  rw [if_neg (by simp [special]), if_neg (by simp [special'])]
  exact ⟨rfl, rfl⟩

theorem Mpd.Alike.rank {a b : Mpd} (alike : a.Alike b) :
    a.rank = b.rank ∧ (a = .nan ↔ b = .nan) := by
  rcases alike with rfl | ⟨fa, fb, _⟩
  · exact ⟨rfl, Iff.rfl⟩
  · cases a <;> cases b <;> simp_all [Mpd.isFinite, Mpd.rank]

theorem specialValues_reference : SpecialValues where
  add_special := liftExact_special
  cmp_special := by
    intro a a' b b' _ left right
    rcases left.rank with ⟨rank, nan⟩
    rcases right.rank with ⟨rank', nan'⟩
    simp only [mpdCmp, referenceCmp, rank, rank', left.value, right.value, nan, nan']

end Special

example : readMpd "-12.50E+1" = some (.finite true 1250 (-1)) := by decide +kernel

example : readMpd "sNaN12" = some .nan := by decide +kernel

end ViabtcServer.Decimal
