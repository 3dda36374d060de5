import ViabtcServer.Wire.Word

/-!
# WebSocket frames

Frames as they are sent and read: the bits of the first two bytes, the three forms
of a length of which the shortest is used, and the mask of a client.
-/

namespace ViabtcServer.WebSocket

open Wire

/-! ## Masks -/

/-- The four bytes of a mask. -/
structure Mask where
  bytes : List Byte
  length : bytes.length = 4

/-- The byte that masks the byte `i`. -/
def Mask.byte (mask : Mask) (i : ℕ) : Byte :=
  mask.bytes.getD (i % 4) 0

/-- Mask the bytes from `i` on. -/
def Mask.apply (mask : Mask) : ℕ → List Byte → List Byte
  | _, [] => []
  | i, byte :: bytes => (byte ^^^ mask.byte i) :: mask.apply (i + 1) bytes

@[simp]
theorem Mask.apply_length (mask : Mask) (i : ℕ) (bytes : List Byte) :
    (mask.apply i bytes).length = bytes.length := by
  induction bytes generalizing i with
  | nil => rfl
  | cons byte bytes ih => exact congrArg Nat.succ (ih (i + 1))

/-- Masking twice changes nothing. -/
theorem Mask.apply_apply (mask : Mask) (i : ℕ) (bytes : List Byte) :
    mask.apply i (mask.apply i bytes) = bytes := by
  induction bytes generalizing i with
  | nil => rfl
  | cons byte bytes ih =>
      have same : byte ^^^ mask.byte i ^^^ mask.byte i = byte := by
        rw [BitVec.xor_assoc, BitVec.xor_self, BitVec.xor_zero]
      change (byte ^^^ mask.byte i ^^^ mask.byte i) ::
        mask.apply (i + 1) (mask.apply (i + 1) bytes) = byte :: bytes
      rw [same, ih]

/-! ## Frames -/

/-- A frame; its length has to fit 63 bits. -/
structure Frame where
  fin : Bool
  opcode : BitVec 4
  mask : Option Mask
  payload : List Byte
  bound : payload.length < 2 ^ 63

/-- The first byte. -/
def firstByte (fin : Bool) (opcode : BitVec 4) : Byte :=
  BitVec.ofBool fin ++ (0 : BitVec 3) ++ opcode

/-- The second byte. -/
def secondByte (masked : Bool) (len : ℕ) : Byte :=
  BitVec.ofBool masked ++ BitVec.ofNat 7 len

/-- The shortest form of a length: what the second byte says, and the bytes behind
it. -/
def lengthForm (n : ℕ) : ℕ × List Byte :=
  if n < 126 then (n, [])
  else if n < 2 ^ 16 then (126, (bytesOf 2 n).reverse)
  else (127, (bytesOf 8 n).reverse)

/-- The bytes of a mask, if there is one. -/
def maskBytes : Option Mask → List Byte
  | none => []
  | some mask => mask.bytes

/-- Mask a payload, if there is a mask. -/
def masked : Option Mask → List Byte → List Byte
  | none, payload => payload
  | some mask, payload => mask.apply 0 payload

theorem masked_masked (mask : Option Mask) (payload : List Byte) :
    masked mask (masked mask payload) = payload := by
  cases mask with
  | none => rfl
  | some mask => exact mask.apply_apply 0 payload

@[simp]
theorem masked_length (mask : Option Mask) (payload : List Byte) :
    (masked mask payload).length = payload.length := by
  cases mask with
  | none => rfl
  | some mask => exact mask.apply_length 0 payload

/-- The bytes of a frame. -/
def Frame.encode (frame : Frame) : List Byte :=
  firstByte frame.fin frame.opcode ::
    secondByte frame.mask.isSome (lengthForm frame.payload.length).1 ::
    ((lengthForm frame.payload.length).2 ++ maskBytes frame.mask ++
      masked frame.mask frame.payload)

/-! ## Reading -/

/-- Read a length in its shortest form. -/
def readLength (len : ℕ) (data : List Byte) : Option (ℕ × List Byte) :=
  if len < 126 then some (len, data)
  else
    let k := if len = 126 then 2 else 8
    let n := valueOf (data.take k).reverse
    if k ≤ data.length ∧ (lengthForm n).1 = len then some (n, data.drop k) else none

/-- Read a mask, if there is one. -/
def readMask (isMasked : Bool) (data : List Byte) : Option (Option Mask × List Byte) :=
  if isMasked then
    if there : 4 ≤ data.length then
      some (some ⟨data.take 4, List.length_take_of_le there⟩, data.drop 4)
    else none
  else some (none, data)

/-- Read a payload of `n` bytes. -/
def readPayload (fin : Bool) (opcode : BitVec 4) (mask : Option Mask) (n : ℕ) (data : List Byte) :
    Option (Frame × List Byte) :=
  if fits : n < 2 ^ 63 ∧ n ≤ data.length then
    some
      ({ fin := fin
         opcode := opcode
         mask := mask
         payload := masked mask (data.take n)
         bound := by rw [masked_length, List.length_take]; omega },
        data.drop n)
  else none

/-- Read a frame from the front of some bytes. -/
def readFrame : List Byte → Option (Frame × List Byte)
  | first :: second :: data =>
      if first &&& 0x70 ≠ 0 then none
      else
        (readLength (second &&& 0x7f).toNat data).bind fun (n, data) =>
          (readMask (second &&& 0x80 != 0) data).bind fun (mask, data) =>
            readPayload (first &&& 0x80 != 0) (first.setWidth 4) mask n data
  | _ => none

/-! ## Reading what was sent -/

theorem firstByte_bits (fin : Bool) (opcode : BitVec 4) :
    firstByte fin opcode &&& 0x70 = 0 ∧ (firstByte fin opcode &&& 0x80 != 0) = fin ∧
      (firstByte fin opcode).setWidth 4 = opcode ∧
      firstByte fin opcode &&& 0x0f = opcode.setWidth 8 := by
  revert fin opcode
  decide

theorem secondByte_bits (isMasked : Bool) {len : ℕ} (small : len < 128) :
    (secondByte isMasked len &&& 0x80 != 0) = isMasked ∧
      (secondByte isMasked len &&& 0x7f).toNat = len := by
  have all : ∀ (isMasked : Bool) (len : Fin 128),
      (secondByte isMasked len &&& 0x80 != 0) = isMasked ∧
        (secondByte isMasked len &&& 0x7f).toNat = len := by
    decide +kernel
  exact all isMasked ⟨len, small⟩

theorem lengthForm_lt (n : ℕ) : (lengthForm n).1 < 128 := by
  unfold lengthForm
  split
  · simp only
    omega
  · split <;> simp

/-- A length is in the second byte, or in the two or eight bytes behind it. -/
theorem lengthForm_cases {n : ℕ} (fits : n < 2 ^ 63) :
    (n < 126 ∧ lengthForm n = (n, [])) ∨
      ∃ k len, lengthForm n = (len, (bytesOf k n).reverse) ∧ ¬len < 126 ∧
        (if len = 126 then 2 else 8) = k ∧ n < 256 ^ k := by
  unfold lengthForm
  by_cases short : n < 126
  · exact Or.inl ⟨short, if_pos short⟩
  rw [if_neg short]
  by_cases medium : n < 2 ^ 16
  · exact Or.inr ⟨2, 126, if_pos medium, by decide, rfl, by omega⟩
  · exact Or.inr ⟨8, 127, if_neg medium, by decide, rfl, by omega⟩

theorem readLength_lengthForm {n : ℕ} (fits : n < 2 ^ 63) (data : List Byte) :
    readLength (lengthForm n).1 ((lengthForm n).2 ++ data) = some (n, data) := by
  unfold readLength
  rcases lengthForm_cases fits with ⟨short, form⟩ | ⟨k, len, form, large, kind, bound⟩
  · rw [form]
    exact if_pos short
  · have length : (bytesOf k n).reverse.length = k := by
      rw [List.length_reverse, bytesOf_length]
    have value : valueOf (((bytesOf k n).reverse ++ data).take k).reverse = n := by
      rw [List.take_left' length, List.reverse_reverse, valueOf_bytesOf, Nat.mod_eq_of_lt bound]
    rw [form]
    simp only
    rw [if_neg large, kind, value, form, List.drop_left' length]
    apply if_pos
    rw [List.length_append, length]
    exact ⟨Nat.le_add_right _ _, rfl⟩

theorem readMask_maskBytes (mask : Option Mask) (data : List Byte) :
    readMask mask.isSome (maskBytes mask ++ data) = some (mask, data) := by
  cases mask with
  | none => rfl
  | some mask =>
      have there : 4 ≤ (maskBytes (some mask) ++ data).length := by
        change 4 ≤ (mask.bytes ++ data).length
        rw [List.length_append, mask.length]
        exact Nat.le_add_right _ _
      unfold readMask
      rw [if_pos Option.isSome_some, dif_pos there]
      simp only [Option.some.injEq, Prod.mk.injEq]
      rcases mask with ⟨bytes, length⟩
      constructor
      · simp only [Mask.mk.injEq]
        exact List.take_left' length
      · exact List.drop_left' length

/-- A frame is read back, followed by anything. -/
theorem readFrame_encode (frame : Frame) (data : List Byte) :
    readFrame (frame.encode ++ data) = some (frame, data) := by
  rcases frame with ⟨fin, opcode, mask, payload, bound⟩
  obtain ⟨reserved, isFin, same, _⟩ := firstByte_bits fin opcode
  obtain ⟨isMasked, len⟩ := secondByte_bits mask.isSome (lengthForm_lt payload.length)
  have length : (masked mask payload).length = payload.length := masked_length mask payload
  have fits : payload.length < 2 ^ 63 ∧
      payload.length ≤ (masked mask payload ++ data).length := by
    refine ⟨bound, ?_⟩
    rw [List.length_append, length]
    exact Nat.le_add_right _ _
  unfold Frame.encode readFrame
  simp only [List.cons_append]
  rw [if_neg (not_not_intro reserved), len, isMasked, isFin, same, List.append_assoc,
    List.append_assoc, readLength_lengthForm bound, Option.bind_some]
  simp only
  rw [readMask_maskBytes, Option.bind_some]
  unfold readPayload
  simp only
  rw [dif_pos fits]
  simp only [Option.some.injEq, Prod.mk.injEq, Frame.mk.injEq, true_and]
  constructor
  · rw [List.take_left' length, masked_masked]
  · rw [List.drop_left' length]

end ViabtcServer.WebSocket
