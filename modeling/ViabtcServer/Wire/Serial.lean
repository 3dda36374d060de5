import ViabtcServer.Wire.Register
import Mathlib.Data.BitVec
import Mathlib.Data.List.GetD

/-!
# Division one bit at a time

The register of a reflected cyclic code. A bit of the message is added to the
lowest bit of the register, which is then shifted out; where the sum is set, the
polynomial is added to the rest. Bits go in as they lie in the message, the
lowest bit of a byte first.

The step is linear, and while no more bits went in than the register has places
it is zero only if it held just these bits. Two messages which differ in a short
window only therefore leave different remainders.
-/

namespace ViabtcServer.Wire.Serial

variable {w : ℕ} (polynomial : BitVec w)

/-- One bit of the message. -/
def feed (state : BitVec w) (bit : Bool) : BitVec w :=
  if (state.getLsbD 0 ^^ bit) = true then (state >>> 1) ^^^ polynomial else state >>> 1

/-- What the bits of a message leave in the register. -/
def remainder (state : BitVec w) (bits : List Bool) : BitVec w :=
  bits.foldl (feed polynomial) state

@[simp]
theorem remainder_nil (state : BitVec w) : remainder polynomial state [] = state :=
  rfl

@[simp]
theorem remainder_cons (state : BitVec w) (bit : Bool) (bits : List Bool) :
    remainder polynomial state (bit :: bits) =
      remainder polynomial (feed polynomial state bit) bits :=
  rfl

theorem remainder_append (state : BitVec w) (first second : List Bool) :
    remainder polynomial state (first ++ second) =
      remainder polynomial (remainder polynomial state first) second :=
  List.foldl_append

/-! ## Linearity -/

theorem feed_xor (state state' : BitVec w) (bit bit' : Bool) :
    feed polynomial (state ^^^ state') (bit ^^ bit') =
      feed polynomial state bit ^^^ feed polynomial state' bit' := by
  have cancel (x y : BitVec w) : x ^^^ polynomial ^^^ (y ^^^ polynomial) = x ^^^ y := by
    rw [BitVec.xor_assoc, BitVec.xor_comm y, ← BitVec.xor_assoc polynomial, BitVec.xor_self,
      BitVec.zero_xor]
  have sum : ((state ^^^ state').getLsbD 0 ^^ (bit ^^ bit')) =
      ((state.getLsbD 0 ^^ bit) ^^ (state'.getLsbD 0 ^^ bit')) := by
    rw [BitVec.getLsbD_xor]
    simp only [Bool.xor_assoc, Bool.xor_left_comm]
  unfold feed
  rw [sum, BitVec.ushiftRight_xor_distrib]
  cases state.getLsbD 0 ^^ bit with
  | false =>
      cases state'.getLsbD 0 ^^ bit' with
      | false => rfl
      | true => exact BitVec.xor_assoc _ _ _
  | true =>
      cases state'.getLsbD 0 ^^ bit' with
      | false =>
          change state >>> 1 ^^^ state' >>> 1 ^^^ polynomial =
            state >>> 1 ^^^ polynomial ^^^ state' >>> 1
          rw [BitVec.xor_assoc, BitVec.xor_comm (state' >>> 1), ← BitVec.xor_assoc]
      | true => exact (cancel _ _).symm

/-- The remainder of a sum is the sum of the remainders. -/
theorem remainder_xor {bits bits' : List Bool} (equal : bits.length = bits'.length)
    (state state' : BitVec w) :
    remainder polynomial (state ^^^ state') (List.zipWith xor bits bits') =
      remainder polynomial state bits ^^^ remainder polynomial state' bits' := by
  induction bits generalizing bits' state state' with
  | nil =>
      cases bits' with
      | nil => rfl
      | cons bit' bits' => exact absurd equal (Nat.succ_ne_zero _).symm
  | cons bit bits ih =>
      cases bits' with
      | nil => exact absurd equal (Nat.succ_ne_zero _)
      | cons bit' bits' =>
          rw [List.zipWith_cons_cons, remainder_cons, remainder_cons, remainder_cons, feed_xor]
          exact ih (Nat.succ.inj equal) _ _

/-! ## Bits shifted out -/

/-- The register holds these bits, the first of them lowest, and nothing else. -/
def Holds (state : BitVec w) (bits : List Bool) : Prop :=
  ∀ i, state.getLsbD i = bits.getD i false

theorem Holds.feed {state : BitVec w} {bit : Bool} {bits : List Bool}
    (holds : Holds state (bit :: bits)) : Serial.feed polynomial state bit = state >>> 1 := by
  have lowest : state.getLsbD 0 = bit := holds 0
  unfold Serial.feed
  rw [lowest, Bool.xor_self]
  rfl

theorem Holds.tail {state : BitVec w} {bit : Bool} {bits : List Bool}
    (holds : Holds state (bit :: bits)) : Holds (state >>> 1) bits := by
  intro i
  rw [BitVec.getLsbD_ushiftRight, Nat.add_comm]
  exact holds (i + 1)

theorem eq_zero_of_holds_nil {state : BitVec w} (holds : Holds state []) : state = 0#w := by
  apply BitVec.eq_of_getLsbD_eq
  intro i _
  rw [holds i, BitVec.getLsbD_zero]
  rfl

/-- The bits the register holds cancel those of the message. -/
theorem Holds.remainder {state : BitVec w} {bits : List Bool} (holds : Holds state bits) :
    Serial.remainder polynomial state bits = 0#w := by
  induction bits generalizing state with
  | nil => exact eq_zero_of_holds_nil holds
  | cons bit bits ih =>
      rw [remainder_cons, holds.feed]
      exact ih holds.tail

theorem width_pos {polynomial : BitVec w} (top : polynomial.msb = true) : 0 < w := by
  cases w with
  | zero => exact absurd top (Bool.eq_false_iff.mp (BitVec.msb_of_zero_length rfl _))
  | succ w => exact Nat.succ_pos w

theorem feed_msb (top : polynomial.msb = true) (state : BitVec w) (bit : Bool) :
    (feed polynomial state bit).msb = (state.getLsbD 0 ^^ bit) := by
  have shifted : (state >>> 1).msb = false := by
    rw [BitVec.msb_ushiftRight]
    rfl
  unfold feed
  cases state.getLsbD 0 ^^ bit with
  | false => exact shifted
  | true =>
      change ((state >>> 1) ^^^ polynomial).msb = true
      rw [BitVec.msb_xor, shifted, top]
      rfl

/-- What went in can be told from a register it left empty. -/
theorem holds_of_remainder (top : polynomial.msb = true) {state : BitVec w} {bits : List Bool}
    (short : bits.length ≤ w) (empty : remainder polynomial state bits = 0#w) :
    Holds state bits := by
  induction bits generalizing state with
  | nil =>
      intro i
      change state = 0#w at empty
      rw [empty, BitVec.getLsbD_zero]
      rfl
  | cons bit bits ih =>
      rw [List.length_cons] at short
      rw [remainder_cons] at empty
      have rest := ih (Nat.le_of_succ_le short) empty
      -- there is still room at the top, and so the polynomial was not added
      have lowest : state.getLsbD 0 = bit := by
        have msb := feed_msb polynomial top state bit
        rw [BitVec.msb_eq_getLsbD_last, rest (w - 1),
          List.getD_eq_default _ _ (by omega)] at msb
        exact bne_eq_false_iff_eq.mp msb.symm
      have shifted : feed polynomial state bit = state >>> 1 := by
        unfold feed
        rw [lowest, Bool.xor_self]
        rfl
      rintro (_ | i)
      · exact lowest
      · rw [shifted] at rest
        have next := rest i
        rw [BitVec.getLsbD_ushiftRight, Nat.add_comm] at next
        exact next

/-! ## Bursts -/

/-- The register of bits. -/
def register (top : polynomial.msb = true) : Register (BitVec w) Bool where
  step := feed polynomial
  symbol_injective state bit bit' same := by
    have msb := congrArg BitVec.msb same
    rw [feed_msb polynomial top, feed_msb polynomial top] at msb
    exact (Bool.xor_right_inj).mp msb
  state_injective bit state state' same := by
    have sum := feed_xor polynomial state state' bit bit
    have gone : feed polynomial state bit ^^^ feed polynomial state' bit = 0#w := by
      rw [show feed polynomial state bit = feed polynomial state' bit from same, BitVec.xor_self]
    rw [gone, Bool.xor_self] at sum
    have holds : Holds (state ^^^ state') [false] := by
      exact holds_of_remainder polynomial top (width_pos top) sum
    apply BitVec.xor_eq_zero_iff.mp
    apply BitVec.eq_of_getLsbD_eq
    intro i _
    rw [holds i, BitVec.getLsbD_zero]
    cases i with
    | zero => rfl
    | succ i => rfl

/-- No more bits than the register has places: they can be told apart. -/
theorem remainder_inj (top : polynomial.msb = true) {state : BitVec w} {bits bits' : List Bool}
    (equal : bits.length = bits'.length) (short : bits.length ≤ w)
    (same : remainder polynomial state bits = remainder polynomial state bits') :
    bits = bits' := by
  have sum := remainder_xor polynomial equal state state
  rw [same, BitVec.xor_self, BitVec.xor_self] at sum
  have holds : Holds 0#w (List.zipWith xor bits bits') := by
    apply holds_of_remainder polynomial top _ sum
    rw [List.length_zipWith, ← equal, Nat.min_self]
    exact short
  apply List.ext_getElem equal
  intro i inside inside'
  have bit := holds i
  rw [BitVec.getLsbD_zero, List.getD_eq_getElem _ _ (by
    rw [List.length_zipWith, ← equal, Nat.min_self]
    exact inside), List.getElem_zipWith] at bit
  exact bne_eq_false_iff_eq.mp bit.symm

/-- Two messages which differ only in a window no longer than the register. -/
theorem remainder_ne (top : polynomial.msb = true) (state : BitVec w) {bits bits' : List Bool}
    (equal : bits.length = bits'.length) (differ : bits ≠ bits') {start width : ℕ}
    (short : width ≤ w)
    (window : ∀ i, bits[i]? ≠ bits'[i]? → start ≤ i ∧ i < start + width) :
    remainder polynomial state bits ≠ remainder polynomial state bits' := by
  intro same
  have before : bits.take start = bits'.take start := by
    apply List.ext_getElem?
    intro i
    rw [List.getElem?_take, List.getElem?_take]
    by_cases inside : i < start
    · rw [if_pos inside, if_pos inside]
      by_contra unlike
      exact absurd (window i unlike).1 (Nat.not_le.mpr inside)
    · rw [if_neg inside, if_neg inside]
  have after : bits.drop (start + width) = bits'.drop (start + width) := by
    apply List.ext_getElem?
    intro i
    rw [List.getElem?_drop, List.getElem?_drop]
    by_contra unlike
    have bound := (window _ unlike).2
    omega
  have split (whole : List Bool) : whole =
      whole.take start ++ ((whole.drop start).take width ++ whole.drop (start + width)) := by
    rw [← List.drop_drop, List.take_append_drop, List.take_append_drop]
  rw [split bits, split bits', before, after, remainder_append, remainder_append,
    remainder_append, remainder_append] at same
  have inner := (register polynomial top).run_injective _ same
  have middle : (bits.drop start).take width = (bits'.drop start).take width := by
    apply remainder_inj polynomial top _ _ inner
    · rw [List.length_take, List.length_take, List.length_drop, List.length_drop, equal]
    · rw [List.length_take]
      omega
  apply differ
  rw [split bits, split bits', before, middle, after]

/-! ## Whole bytes -/

/-- The bits of a number as they go in. -/
def bitsOf (value : BitVec w) : List Bool :=
  (List.range w).map value.getLsbD

@[simp]
theorem bitsOf_length (value : BitVec w) : (bitsOf value).length = w := by
  rw [bitsOf, List.length_map, List.length_range]

theorem bitsOf_getD (value : BitVec w) (i : ℕ) :
    (bitsOf value).getD i false = value.getLsbD i := by
  rw [List.getD_eq_getElem?_getD, bitsOf, List.getElem?_map]
  by_cases inside : i < w
  · rw [List.getElem?_range inside]
    rfl
  · rw [List.getElem?_eq_none (by rw [List.length_range]; omega),
      BitVec.getLsbD_of_ge _ _ (Nat.not_lt.mp inside)]
    rfl

theorem bitsOf_injective : Function.Injective (bitsOf (w := w)) := by
  intro value value' same
  apply BitVec.eq_of_getLsbD_eq
  intro i _
  rw [← bitsOf_getD, ← bitsOf_getD, same]

/-- The bits of a message. -/
def messageBits (message : List (BitVec w)) : List Bool :=
  message.flatMap bitsOf

@[simp]
theorem messageBits_cons (value : BitVec w) (message : List (BitVec w)) :
    messageBits (value :: message) = bitsOf value ++ messageBits message :=
  List.flatMap_cons

theorem messageBits_length (message : List (BitVec w)) :
    (messageBits message).length = message.length * w := by
  induction message with
  | nil => exact (Nat.zero_mul w).symm
  | cons value message ih =>
      rw [messageBits_cons, List.length_append, bitsOf_length, ih, List.length_cons,
        Nat.succ_mul, Nat.add_comm]

theorem messageBits_inj {message message' : List (BitVec w)}
    (equal : message.length = message'.length) (same : messageBits message = messageBits message') :
    message = message' := by
  induction message generalizing message' with
  | nil => exact (List.length_eq_zero_iff.mp equal.symm).symm
  | cons value message ih =>
      cases message' with
      | nil => exact absurd equal (Nat.succ_ne_zero _)
      | cons value' message' =>
          rw [messageBits_cons, messageBits_cons] at same
          rcases List.append_inj same (by rw [bitsOf_length, bitsOf_length]) with ⟨head, tail⟩
          rw [bitsOf_injective head, ih (Nat.succ.inj equal) tail]

/-! ## A table -/

/-- The register shifted by `n` places. -/
def shifted (n : ℕ) (state : BitVec w) : BitVec w :=
  remainder polynomial state (List.replicate n false)

theorem shifted_xor (n : ℕ) (state state' : BitVec w) :
    shifted polynomial n (state ^^^ state') =
      shifted polynomial n state ^^^ shifted polynomial n state' := by
  have sum := remainder_xor polynomial (rfl : (List.replicate n false).length = _) state state'
  rw [List.zipWith_replicate', Bool.xor_self] at sum
  exact sum

/-- Bits that are not set leave nothing to add. -/
theorem shifted_of_low {n : ℕ} {state : BitVec w} (low : ∀ i < n, state.getLsbD i = false) :
    shifted polynomial n state = state >>> n := by
  induction n generalizing state with
  | zero => rw [BitVec.ushiftRight_zero]; rfl
  | succ n ih =>
      have first : feed polynomial state false = state >>> 1 := by
        unfold feed
        rw [low 0 (Nat.succ_pos n)]
        rfl
      have next : ∀ i < n, (state >>> 1).getLsbD i = false := by
        intro i below
        rw [BitVec.getLsbD_ushiftRight, Nat.add_comm]
        exact low (i + 1) (Nat.succ_lt_succ below)
      unfold shifted at ih ⊢
      rw [List.replicate_succ, remainder_cons, first, ih next, ← BitVec.shiftRight_add,
        Nat.add_comm]

/-- The bits may as well be added to the register first. -/
theorem remainder_bitsOf {n : ℕ} (fits : n ≤ w) (value : BitVec n) (state : BitVec w) :
    remainder polynomial state (bitsOf value) =
      shifted polynomial n (state ^^^ value.setWidth w) := by
  have holds : Holds (value.setWidth w) (bitsOf value) := by
    intro i
    rw [bitsOf_getD, BitVec.getLsbD_setWidth]
    by_cases inside : i < w
    · rw [decide_eq_true inside, Bool.true_and]
    · rw [BitVec.getLsbD_of_ge value i (by omega), Bool.and_false]
  have bits : List.zipWith xor (List.replicate n false) (bitsOf value) = bitsOf value := by
    apply List.ext_getElem
    · rw [List.length_zipWith, List.length_replicate, bitsOf_length, Nat.min_self]
    · intro i inside _
      rw [List.getElem_zipWith, List.getElem_replicate, Bool.false_xor]
  have sum := remainder_xor polynomial
    (show (List.replicate n false).length = (bitsOf value).length by
      rw [List.length_replicate, bitsOf_length])
    (state ^^^ value.setWidth w) (value.setWidth w)
  rw [bits, BitVec.xor_assoc, BitVec.xor_self, BitVec.xor_zero, holds.remainder,
    BitVec.xor_zero] at sum
  exact sum

/-- The highest bits of the register only move down: what is shifted out of the lowest `n`
can be looked up. -/
theorem shifted_eq_lookup (n : ℕ) (state : BitVec w) :
    shifted polynomial n state =
      (state >>> n) ^^^ shifted polynomial n ((state.setWidth n).setWidth w) := by
  have high : ∀ i < n, (state ^^^ (state.setWidth n).setWidth w).getLsbD i = false := by
    intro i below
    rw [BitVec.getLsbD_xor, BitVec.getLsbD_setWidth, BitVec.getLsbD_setWidth,
      decide_eq_true below, Bool.true_and]
    by_cases inside : i < w
    · rw [decide_eq_true inside, Bool.true_and, Bool.xor_self]
    · rw [BitVec.getLsbD_of_ge state i (Nat.not_lt.mp inside), Bool.and_false, Bool.xor_false]
  have low : (state.setWidth n).setWidth w >>> n = 0#w := by
    apply BitVec.eq_of_getLsbD_eq
    intro i _
    rw [BitVec.getLsbD_ushiftRight, BitVec.getLsbD_setWidth,
      BitVec.getLsbD_of_ge _ _ (Nat.le_add_right n i), Bool.and_false, BitVec.getLsbD_zero]
  calc
    shifted polynomial n state = shifted polynomial n
        (state ^^^ (state.setWidth n).setWidth w ^^^ (state.setWidth n).setWidth w) := by
      rw [BitVec.xor_assoc, BitVec.xor_self, BitVec.xor_zero]
    _ = (state ^^^ (state.setWidth n).setWidth w) >>> n ^^^
        shifted polynomial n ((state.setWidth n).setWidth w) := by
      rw [shifted_xor, shifted_of_low polynomial high]
    _ = _ := by
      rw [BitVec.ushiftRight_xor_distrib, low, BitVec.xor_zero]

end ViabtcServer.Wire.Serial
