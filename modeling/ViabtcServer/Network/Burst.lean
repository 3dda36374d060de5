import ViabtcServer.Network.Crc32
import ViabtcServer.Wire.Serial

/-!
# The checksum one bit at a time

The table of `ut_crc32.c` holds what eight bits leave in the register of the
polynomial, and so the loop over the bytes is the division of the whole message
one bit at a time. Errors in a window of at most 32 bits are noticed.
-/

namespace ViabtcServer.Network

open Wire

/-- The polynomial of the checksum, reflected. -/
def crcPolynomial : Word 4 := 0xEDB88320

/-- The reflected code, one bit at a time: the register starts with all bits set, and its
complement is the checksum. -/
def crc32Bitwise (buffer : List Byte) : Word 4 :=
  ~~~ Serial.remainder crcPolynomial (BitVec.allOnes 32) (Serial.messageBits buffer)

theorem crcPolynomial_msb : crcPolynomial.msb = true := by
  decide

theorem crcC_eq_map :
    crcC = (List.range 256).map fun index =>
      Serial.shifted crcPolynomial 8 (BitVec.ofNat 32 index) := by
  decide +kernel

/-- An entry of the table. -/
theorem crcC_getD {index : ℕ} (inside : index < 256) :
    crcC.getD index 0 = Serial.shifted crcPolynomial 8 (BitVec.ofNat 32 index) := by
  rw [crcC_eq_map, List.getD_eq_getElem?_getD, List.getElem?_map, List.getElem?_range inside]
  rfl

/-- A byte through the table. -/
theorem crc32cStep_eq_remainder (crc32 : Word 4) (byte : Byte) :
    crc32cStep crc32 byte = Serial.remainder crcPolynomial crc32 (Serial.bitsOf byte) := by
  have moved : byte.setWidth 32 >>> 8 = 0#32 := by
    apply BitVec.eq_of_toNat_eq
    have bound := byte.isLt
    rw [BitVec.toNat_ushiftRight, BitVec.toNat_setWidth, Nat.shiftRight_eq_div_pow]
    change byte.toNat % 2 ^ 32 / 2 ^ 8 = 0
    omega
  have index : BitVec.ofNat 32 (crcIndex crc32 byte) =
      ((crc32 ^^^ byte.setWidth 32).setWidth 8).setWidth 32 := by
    rw [crcIndex_eq, BitVec.setWidth_xor, BitVec.setWidth_setWidth_of_le _ (by decide),
      BitVec.setWidth_eq, BitVec.ofNat_toNat]
  calc
    crc32cStep crc32 byte = crc32 >>> 8 ^^^
        Serial.shifted crcPolynomial 8 (BitVec.ofNat 32 (crcIndex crc32 byte)) := by
      rw [← crcC_getD (crcIndex_lt crc32 byte)]
      rfl
    _ = (crc32 ^^^ byte.setWidth 32) >>> 8 ^^^ Serial.shifted crcPolynomial 8
        (((crc32 ^^^ byte.setWidth 32).setWidth 8).setWidth 32) := by
      rw [index, BitVec.ushiftRight_xor_distrib, moved, BitVec.xor_zero]
    _ = Serial.shifted crcPolynomial 8 (crc32 ^^^ byte.setWidth 32) :=
      (Serial.shifted_eq_lookup _ _ _).symm
    _ = _ := (Serial.remainder_bitsOf _ (by decide) _ _).symm

/-- All bytes through the table. -/
theorem foldl_crc32cStep (buffer : List Byte) (crc32 : Word 4) :
    buffer.foldl crc32cStep crc32 =
      Serial.remainder crcPolynomial crc32 (Serial.messageBits buffer) := by
  induction buffer generalizing crc32 with
  | nil => rfl
  | cons byte buffer ih =>
      rw [List.foldl_cons, crc32cStep_eq_remainder, ih, Serial.messageBits_cons,
        Serial.remainder_append]

theorem generateCrc32c_eq (buffer : List Byte) :
    generateCrc32c buffer buffer.length = crc32Bitwise buffer := by
  unfold generateCrc32c crc32Bitwise
  rw [List.take_length, foldl_crc32cStep]
  rfl

/-- The checksum of a package is the code of the polynomial, every entry of the table is right,
and errors within a window of at most 32 bits, the lowest bit of a byte first, change it. -/
theorem crc32c_reflected (buffer : List Byte) :
    generateCrc32c buffer buffer.length = crc32Bitwise buffer ∧
    (∀ index < 256,
      crcC[index]? = some (Serial.shifted crcPolynomial 8 (BitVec.ofNat 32 index))) ∧
    ∀ other : List Byte, other.length = buffer.length → other ≠ buffer →
      ∀ start width : ℕ, width ≤ 32 →
        (∀ i, (Serial.messageBits buffer)[i]? ≠ (Serial.messageBits other)[i]? →
          start ≤ i ∧ i < start + width) →
        generateCrc32c other other.length ≠ generateCrc32c buffer buffer.length := by
  constructor
  · exact generateCrc32c_eq buffer
  constructor
  · intro index inside
    rw [crcC_eq_map, List.getElem?_map, List.getElem?_range inside]
    rfl
  · intro other equal differ start width short window same
    rw [generateCrc32c_eq, generateCrc32c_eq] at same
    unfold crc32Bitwise at same
    rw [BitVec.not_inj] at same
    apply Serial.remainder_ne crcPolynomial crcPolynomial_msb _ _ _ short window same.symm
    · rw [Serial.messageBits_length, Serial.messageBits_length, equal]
    · intro bits
      exact differ (Serial.messageBits_inj equal bits.symm)

/-- Four bytes exchanged for four others. -/
theorem crc32c_reflected_small :
    generateCrc32c [0x00, 0xFF, 0x12, 0x80, 0x31] 5 ≠
      generateCrc32c [0x31, 0x32, 0x33, 0x34, 0x31] 5 := by
  have after : (Serial.messageBits ([0x31, 0x32, 0x33, 0x34, 0x31] : List Byte)).drop 32 =
      (Serial.messageBits ([0x00, 0xFF, 0x12, 0x80, 0x31] : List Byte)).drop 32 := by
    decide
  apply (crc32c_reflected [0x31, 0x32, 0x33, 0x34, 0x31]).2.2 [0x00, 0xFF, 0x12, 0x80, 0x31] rfl
    (by decide) 0 32 (le_refl 32)
  intro i unlike
  constructor
  · exact Nat.zero_le i
  · by_contra outside
    apply unlike
    have bit := congrArg (fun bits => bits[i - 32]?) after
    simp only [List.getElem?_drop] at bit
    rw [show 32 + (i - 32) = i by omega] at bit
    exact bit

end ViabtcServer.Network
