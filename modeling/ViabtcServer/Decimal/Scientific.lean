import ViabtcServer.Decimal.Reference
import Mathlib.Data.List.DropRight

/-!
# Decimal text

Numeric strings of the General Decimal Arithmetic specification: what number a text
writes, how a number is printed in scientific notation, and that all of it is read
again.
-/

namespace ViabtcServer.Decimal

/-! ## Texts and numbers -/

/-- The exponent behind an `e`. -/
def expoChars : Option ℤ → List Char
  | none => []
  | some e => 'e' :: (if e < 0 then '-' else '+') :: Nat.toDigits 10 e.natAbs

/-- A fraction behind its point, if there is one. -/
def pointChars (frac : List Char) : List Char :=
  if frac = [] then [] else '.' :: frac

/-- A number written with the digits `whole` and `frac` on the two sides of the point. -/
def written (neg : Bool) (whole frac : List Char) (expo : Option ℤ) : List Char :=
  signChars neg ++ (whole ++ (pointChars frac ++ expoChars expo))

/-- The number a text writes, with all of its digits. -/
def numeral (text : List Char) : Option Mpd :=
  let (neg, body) := readSign (text.map Char.toLower)
  let whole := readDigits body 0 0
  let fraction := readFraction whole.1 whole.2.2
  if whole.2.1 + fraction.2.1 = 0 then none
  else (readExponent fraction.2.2).map fun exp => .finite neg fraction.1 (exp - fraction.2.1)

/-- The digits of a number on the two sides of the point, and the exponent that is printed:
none if the number is not larger than its digits and not much smaller than one. -/
def sciParts (coeff : ℕ) (exp : ℤ) : List Char × List Char × Option ℤ :=
  let digits := Nat.toDigits 10 coeff
  let place := digits.length + exp
  if exp ≤ 0 ∧ -6 < place then
    if place ≤ 0 then (['0'], List.replicate (-place).toNat '0' ++ digits, none)
    else (digits.take place.toNat, digits.drop place.toNat, none)
  else (digits.take 1, digits.drop 1, some (place - 1))

/-- `mpd_to_sci (value, 0)`. -/
def sciText : Mpd → List Char
  | .finite neg coeff exp =>
      let (whole, frac, expo) := sciParts coeff exp
      written neg whole frac expo
  | .infinity neg => signChars neg ++ "Infinity".toList
  | .nan => "NaN".toList

/-! ## Reading what is written -/

section Written

variable {neg : Bool} {whole frac : List Char} {expo : Option ℤ}

theorem readExponent_expoChars (expo : Option ℤ) :
    readExponent (expoChars expo) = some (expo.getD 0) := by
  cases expo with
  | none => rfl
  | some e =>
      have digits := @readDigits_toDigits e.natAbs [] nofun
      rw [List.append_nil] at digits
      rcases toDigits_cons e.natAbs with ⟨c, text, same, _⟩
      have length : (Nat.toDigits 10 e.natAbs).length = text.length + 1 := by
        rw [same]
        rfl
      by_cases below : e < 0
      · simp only [expoChars, if_pos below, readExponent, readSign, digits, length]
        simp only [if_true, Option.getD_some, Option.some.injEq]
        omega
      · simp only [expoChars, if_neg below, readExponent, readSign, digits, length]
        simp only [Bool.false_eq_true, if_false, Option.getD_some, Option.some.injEq]
        omega

theorem stop_expoChars (expo : Option ℤ) :
    ∀ c ∈ (expoChars expo).head?, digitValue c = none ∧ c ≠ '.' := by
  intro c first
  cases expo with
  | none => cases first
  | some e =>
      cases first
      exact ⟨rfl, by decide⟩

theorem readFraction_pointChars (number : ℕ) (all : ∀ c ∈ frac, c.isDigit = true) :
    readFraction number (pointChars frac ++ expoChars expo) =
      (Nat.ofDigitChars 10 frac number, frac.length, expoChars expo) := by
  have stop := fun c first => (stop_expoChars expo c first).1
  unfold pointChars
  split
  · rename_i none_
    subst none_
    rw [List.nil_append]
    unfold readFraction
    split
    · rename_i text same
      exact absurd rfl (stop_expoChars expo '.' (by rw [same]; rfl)).2
    · rfl
  · rw [List.cons_append, readFraction, readDigits_append all stop, Nat.zero_add]

/-- There are no letters but the `e` of the exponent. -/
theorem toLower_written (wholeDigits : ∀ c ∈ whole, c.isDigit = true)
    (fracDigits : ∀ c ∈ frac, c.isDigit = true) :
    (written neg whole frac expo).map Char.toLower = written neg whole frac expo := by
  apply (List.map_congr_left _).trans (List.map_id _)
  intro c mem
  have digit {text : List Char} (all : ∀ c ∈ text, c.isDigit = true) (mem : c ∈ text) :
      c.toLower = id c :=
    toLower_of_isDigit (all c mem)
  unfold written at mem
  rcases List.mem_append.mp mem with sign | mem
  · cases neg with
    | true =>
        rw [List.mem_singleton.mp sign]
        rfl
    | false => cases sign
  rcases List.mem_append.mp mem with inWhole | mem
  · exact digit wholeDigits inWhole
  rcases List.mem_append.mp mem with inFrac | mem
  · unfold pointChars at inFrac
    split at inFrac
    · cases inFrac
    · rcases List.mem_cons.mp inFrac with rfl | inFrac
      · rfl
      · exact digit fracDigits inFrac
  · cases expo with
    | none => cases mem
    | some e =>
        rcases List.mem_cons.mp mem with rfl | mem
        · rfl
        rcases List.mem_cons.mp mem with rfl | mem
        · split <;> rfl
        · exact digit (isDigit_toDigits _) mem

/-- What is written is read, digit by digit. -/
theorem numeral_written (nonempty : whole ≠ []) (wholeDigits : ∀ c ∈ whole, c.isDigit = true)
    (fracDigits : ∀ c ∈ frac, c.isDigit = true) :
    numeral (written neg whole frac expo) =
      some (.finite neg (Nat.ofDigitChars 10 (whole ++ frac) 0)
        (expo.getD 0 - frac.length)) := by
  have stop : ∀ c ∈ (pointChars frac ++ expoChars expo).head?, digitValue c = none := by
    intro c first
    unfold pointChars at first
    split at first
    · exact (stop_expoChars expo c first).1
    · cases first
      rfl
  rcases List.exists_cons_of_ne_nil nonempty with ⟨c, rest, rfl⟩
  have sign : readSign (written neg (c :: rest) frac expo) =
      (neg, c :: rest ++ (pointChars frac ++ expoChars expo)) :=
    readSign_signChars neg (wholeDigits c List.mem_cons_self)
  unfold numeral
  rw [toLower_written wholeDigits fracDigits, sign]
  simp only
  rw [readDigits_append wholeDigits stop]
  simp only
  rw [readFraction_pointChars _ fracDigits, if_neg (by simp), readExponent_expoChars,
    Option.map_some, Nat.ofDigitChars_append]

end Written

/-! ## Scientific notation -/

/-- The parts of a number are digits, and make up the number. -/
theorem sciParts_spec (coeff : ℕ) (exp : ℤ) {whole frac : List Char} {expo : Option ℤ}
    (parts : sciParts coeff exp = (whole, frac, expo)) :
    whole ≠ [] ∧ (∀ c ∈ whole, c.isDigit = true) ∧ (∀ c ∈ frac, c.isDigit = true) ∧
      Nat.ofDigitChars 10 (whole ++ frac) 0 = coeff ∧ expo.getD 0 - frac.length = exp := by
  have digits := isDigit_toDigits coeff
  have number : Nat.ofDigitChars 10 (Nat.toDigits 10 coeff) 0 = coeff :=
    Nat.ofDigitChars_ten_toDigits
  have positive : 0 < (Nat.toDigits 10 coeff).length := by
    rcases toDigits_cons coeff with ⟨c, text, same, _⟩
    rw [same]
    exact Nat.succ_pos _
  have some_ (n : ℕ) (pos : 0 < n) : (Nat.toDigits 10 coeff).take n ≠ [] := by
    intro none_
    have length := congrArg List.length none_
    rw [List.length_take, List.length_nil] at length
    omega
  unfold sciParts at parts
  simp only at parts
  split at parts
  · split at parts
    · rename_i plain small
      cases parts
      refine ⟨nofun, List.forall_mem_singleton.mpr rfl, ?_, ?_, ?_⟩
      · intro c mem
        rcases List.mem_append.mp mem with zero | mem
        · rw [List.eq_of_mem_replicate zero]
          rfl
        · exact digits c mem
      · have zeros (n : ℕ) : Nat.ofDigitChars 10 ('0' :: List.replicate n '0') 0 = 0 := by
          rw [← List.replicate_succ, Nat.ofDigitChars_replicate_zero, Nat.mul_zero]
        rw [← List.append_assoc, Nat.ofDigitChars_append, List.singleton_append, zeros, number]
      · rw [List.length_append, List.length_replicate, Option.getD_none]
        omega
    · rename_i plain large
      cases parts
      refine ⟨some_ _ (by omega), fun c mem => digits c (List.mem_of_mem_take mem),
        fun c mem => digits c (List.mem_of_mem_drop mem), ?_, ?_⟩
      · rw [List.take_append_drop, number]
      · rw [List.length_drop, Option.getD_none]
        omega
  · cases parts
    refine ⟨some_ 1 Nat.one_pos, fun c mem => digits c (List.mem_of_mem_take mem),
      fun c mem => digits c (List.mem_of_mem_drop mem), ?_, ?_⟩
    · rw [List.take_append_drop, number]
    · rw [List.length_drop, Option.getD_some]
      omega

theorem sciText_parts {neg : Bool} {coeff : ℕ} {exp : ℤ} {whole frac : List Char}
    {expo : Option ℤ} (parts : sciParts coeff exp = (whole, frac, expo)) :
    sciText (.finite neg coeff exp) = written neg whole frac expo := by
  unfold sciText
  simp only [parts]

/-- A number is read as it is printed, with its exponent. -/
theorem numeral_sciText (neg : Bool) (coeff : ℕ) (exp : ℤ) :
    numeral (sciText (.finite neg coeff exp)) = some (.finite neg coeff exp) := by
  rcases parts : sciParts coeff exp with ⟨whole, frac, expo⟩
  rcases sciParts_spec coeff exp parts with ⟨nonempty, wholeDigits, fracDigits, number, exponent⟩
  rw [sciText_parts parts, numeral_written nonempty wholeDigits fracDigits, number, exponent]

end ViabtcServer.Decimal
