import ViabtcServer.WebSocket.Server

/-!
# What decoding touches

`decode_pkg` stays inside the bytes it is given exactly when the mask is among them
and the size of the frame overflows neither a `size_t` nor an `int`.
-/

namespace ViabtcServer.WebSocket

open Wire

/-- The size of the first part of a frame and the length of its payload, by the seven
bits of its second byte and what follows, if enough is there. -/
def headLength (len : ℕ) (data : List Byte) : Option (ℕ × ℕ) :=
  if len < 126 then some (2, len)
  else
    let k := if len = 126 then 2 else 8
    if k ≤ data.length then some (2 + k, valueOf (data.take k).reverse) else none

/-- What the front of a masked frame with a known opcode says: the size of its first
part, and the length of the payload. -/
def frameHead : List Byte → Option (ℕ × ℕ)
  | first :: second :: data =>
      if isGoodOpcode (first &&& 0x0f) ∧ second &&& 0x80 ≠ 0 then
        headLength (second &&& 0x7f).toNat data
      else none
  | _ => none

theorem frameHead_cons (first second : Byte) (data : List Byte) :
    frameHead (first :: second :: data) =
      if isGoodOpcode (first &&& 0x0f) ∧ second &&& 0x80 ≠ 0 then
        headLength (second &&& 0x7f).toNat data
      else none := rfl

/-- `decode_pkg` stays inside the bytes. What it returns, when it is positive, is the
sum of what the frame is made of, and the payload is part of that; when the sum is
more than there is, it returns 0 and changes nothing. -/
def Inside (host : HostOrder) (frame : WsFrame) (data : List Byte) : Prop :=
  ∃ decoded, decodePkg host true frame data = some decoded ∧
    decoded.data.length = data.length ∧
    (0 < decoded.ret → decoded.ret ≤ data.length ∧
      (∃ first n, frameHead data = some (first, n) ∧ decoded.ret = ↑(first + 4 + n)) ∧
      ↑(decoded.frame.payload + decoded.frame.payloadLen) ≤ decoded.ret) ∧
    ∀ first n, frameHead data = some (first, n) → data.length < first + 4 + n →
      decoded.ret = 0 ∧ decoded.data = data

/-- The mask is there, a `size_t` can count the frame, and so can an `int` unless it
becomes negative or 0. -/
def Harmless (data : List Byte) : Prop :=
  ∀ first n, frameHead data = some (first, n) →
    first + 4 ≤ data.length ∧ first + 4 + n < 2 ^ 64 ∧
      (first + 4 + n ≤ data.length → 0 < intOfSize (first + 4 + n) → first + 4 + n < 2 ^ 31)

/-! ## Reading and unmasking -/

section Access

variable {data : List Byte}

theorem readBytes_inside {off k : ℕ} (inside : off + k ≤ data.length) :
    readBytes data off k = some (slice data off k) :=
  if_pos inside

theorem readBytes_outside {off k : ℕ} (outside : ¬off + k ≤ data.length) :
    readBytes data off k = none :=
  if_neg outside

/-- The bytes of a payload are replaced by the masked ones. -/
theorem unmask_inside (mask : Mask) {p left i : ℕ} (inside : p + i + left ≤ data.length) :
    unmask mask.bytes p left i data =
      some (overwrite data (p + i) (mask.apply i (slice data (p + i) left))) := by
  induction left generalizing i data with
  | zero =>
      have nothing : slice data (p + i) 0 = [] := rfl
      rw [nothing]
      unfold unmask overwrite Mask.apply
      rw [List.append_nil, List.length_nil, Nat.add_zero, List.take_append_drop]
  | succ left ih =>
      have here : p + i < data.length := by omega
      have index : i % 4 < mask.bytes.length := by
        rw [mask.length]
        omega
      have byte : mask.byte i = mask.bytes[i % 4] := by
        unfold Mask.byte
        rw [List.getD_eq_getElem?_getD, List.getElem?_eq_getElem index, Option.getD_some]
      have split : slice data (p + i) (left + 1) =
          data[p + i] :: slice data (p + i + 1) left := by
        unfold slice
        rw [List.drop_eq_getElem_cons here, List.take_succ_cons]
      have more : p + (i + 1) + left ≤ (data.set (p + i) (data[p + i] ^^^ mask.byte i)).length := by
        rw [List.length_set]
        omega
      have rest : slice (data.set (p + i) (data[p + i] ^^^ mask.byte i)) (p + (i + 1)) left =
          slice data (p + i + 1) left := slice_set (Or.inl (by omega))
      unfold unmask
      rw [List.getElem?_eq_getElem here, List.getElem?_eq_getElem index]
      simp only
      rw [← byte, ih more, rest, split]
      unfold overwrite
      have front : (data.set (p + i) (data[p + i] ^^^ mask.byte i)).take (p + (i + 1)) =
          data.take (p + i) ++ [data[p + i] ^^^ mask.byte i] := by
        rw [← Nat.add_assoc, List.take_set, List.take_succ_eq_append_getElem here,
          List.set_append_right _ _ (by rw [List.length_take]; omega)]
        simp [List.length_take, Nat.min_eq_left (Nat.le_of_lt here)]
      have back (k : ℕ) : (data.set (p + i) (data[p + i] ^^^ mask.byte i)).drop
          (p + (i + 1) + k) = data.drop (p + i + (k + 1)) := by
        rw [List.drop_set_of_lt (by omega)]
        congr 1
        omega
      rw [front, back, Mask.apply, List.length_cons]
      simp

/-- Or an access is outside. -/
theorem unmask_outside (masks : List Byte) {p left i : ℕ}
    (outside : data.length < p + i + left) (more : 0 < left) :
    unmask masks p left i data = none := by
  induction left generalizing i data with
  | zero => exact absurd more (lt_irrefl 0)
  | succ left ih =>
      unfold unmask
      split
      · rename_i byte mask here _
        have inside := (List.getElem?_eq_some_iff.mp here).1
        by_cases last : left = 0
        · omega
        · apply ih
          · rw [List.length_set]
            omega
          · omega
      · rfl

end Access

/-! ## Decoding -/

section Decode

variable {data : List Byte} (host : HostOrder)

/-- The length of a payload as `decode_pkg` reads it. -/
theorem decodeLength_eq {first second : Byte} {data : List Byte}
    (good : isGoodOpcode (first &&& 0x0f) = true) (isMasked : second &&& 0x80 ≠ 0) :
    decodeLength host (first :: second :: data) (second &&& 0x7f).toNat =
      some (frameHead (first :: second :: data)) := by
  have part {k : ℕ} (there : k ≤ data.length) :
      readBytes (first :: second :: data) 2 k = some (data.take k) := by
    rw [readBytes_inside (by simp only [List.length_cons]; omega)]
    rfl
  have value {k : ℕ} (there : k ≤ data.length) :
      (host.be (host.load (data.take k) : Word k)).toNat = valueOf (data.take k).reverse := by
    have length : (data.take k).length = k := List.length_take_of_le there
    have bound := valueOf_lt (data.take k).reverse
    rw [List.length_reverse, length, HostOrder.pow_bytes] at bound
    rw [host.be_load length]
    change (BitVec.ofNat (8 * k) (valueOf (data.take k).reverse)).toNat = _
    rw [BitVec.toNat_ofNat, Nat.mod_eq_of_lt bound]
  rw [frameHead_cons, if_pos ⟨good, isMasked⟩]
  unfold headLength decodeLength
  simp only
  by_cases short : (second &&& 0x7f).toNat < 126
  · rw [if_pos short, if_pos short]
  rw [if_neg short, if_neg short]
  by_cases medium : (second &&& 0x7f).toNat = 126
  · rw [if_pos medium, if_pos medium]
    by_cases there : 2 ≤ data.length
    · rw [if_neg (by simp only [List.length_cons]; omega), if_pos there, part there,
        Option.map_some, value there]
    · rw [if_pos (by simp only [List.length_cons]; omega), if_neg there]
  · rw [if_neg medium, if_neg medium]
    by_cases there : 8 ≤ data.length
    · rw [if_neg (by simp only [List.length_cons]; omega), if_pos there, part there,
        Option.map_some, value there]
    · rw [if_pos (by simp only [List.length_cons]; omega), if_neg there]

/-- Without a head nothing is touched. -/
theorem decodePkg_none {data : List Byte} (head : frameHead data = none) (frame : WsFrame) :
    ∃ ret frame', decodePkg host true frame data = some ⟨ret, frame', data⟩ ∧ ret ≤ 0 := by
  match data, head with
  | [], _ => exact ⟨0, frame, rfl, le_rfl⟩
  | [_], _ => exact ⟨0, frame, rfl, le_rfl⟩
  | first :: second :: data, head =>
      unfold decodePkg
      simp only [Bool.not_true, Bool.false_eq_true, if_false, List.length_cons,
        List.getElem?_cons_zero, List.getElem?_cons_succ]
      rw [if_neg (by omega)]
      by_cases good : isGoodOpcode (first &&& 0x0f) = true
      · rw [if_neg (by rw [good]; decide)]
        by_cases plain : second &&& 0x80 = 0
        · rw [if_pos plain]
          exact ⟨-1, _, rfl, by decide⟩
        · rw [if_neg plain, decodeLength_eq host good plain, head]
          exact ⟨0, _, rfl, le_rfl⟩
      · rw [if_pos (by rw [Bool.not_eq_true] at good; rw [good]; rfl)]
        exact ⟨-1, _, rfl, by decide⟩

/-- With one the mask and the payload are decoded. -/
theorem decodePkg_some {data : List Byte} {first n : ℕ} (head : frameHead data = some (first, n))
    (frame : WsFrame) : decodePkg host true frame data =
      decodePayload data
        { WsFrame.zero with
          fin := data.getD 0 0 &&& 0x80
          opcode := data.getD 0 0 &&& 0x0f } first n := by
  match data, head with
  | b0 :: b1 :: data, head =>
      have accepted : isGoodOpcode (b0 &&& 0x0f) ∧ b1 &&& 0x80 ≠ 0 := by
        rw [frameHead_cons] at head
        by_contra refused
        rw [if_neg refused] at head
        cases head
      unfold decodePkg
      simp only [Bool.not_true, Bool.false_eq_true, if_false, List.length_cons,
        List.getElem?_cons_zero, List.getElem?_cons_succ]
      rw [if_neg (by omega), if_neg (by rw [accepted.1]; decide), if_neg accepted.2,
        decodeLength_eq host accepted.1 accepted.2, head]
      rfl

/-- The first part of a frame is there. -/
theorem frameHead_bounds {first n : ℕ} (head : frameHead data = some (first, n)) :
    first ≤ data.length ∧ first ≤ 10 ∧ n < 2 ^ 64 ∧ (10 ≤ first ∨ n < 2 ^ 16) := by
  match data, head with
  | b0 :: b1 :: data, head =>
      have value {k : ℕ} (there : k ≤ data.length) : valueOf (data.take k).reverse < 256 ^ k := by
        have bound := valueOf_lt (data.take k).reverse
        rwa [List.length_reverse, List.length_take_of_le there] at bound
      rw [frameHead_cons] at head
      split at head
      · unfold headLength at head
        by_cases short : (b1 &&& 0x7f).toNat < 126
        · rw [if_pos short] at head
          cases head
          simp only [List.length_cons]
          omega
        · rw [if_neg short] at head
          have extended {k : ℕ} (size : k = 2 ∨ k = 8)
              (head : (if k ≤ data.length then
                some (2 + k, valueOf (data.take k).reverse) else none) = some (first, n)) :
              first ≤ (b0 :: b1 :: data).length ∧ first ≤ 10 ∧ n < 2 ^ 64 ∧
                (10 ≤ first ∨ n < 2 ^ 16) := by
            by_cases there : k ≤ data.length
            · have bound := value there
              rw [if_pos there] at head
              cases head
              simp only [List.length_cons]
              rcases size with rfl | rfl <;> omega
            · rw [if_neg there] at head
              cases head
          apply extended _ head
          split
          · exact Or.inl rfl
          · exact Or.inr rfl
      · cases head

/-- What `decode_pkg` does behind the first part of a frame. -/
theorem decodePayload_cases (frame : WsFrame) {first n : ℕ} (bounded : data.length < 2 ^ 64)
    (small : first ≤ 10) (fits : n < 2 ^ 64) :
    (data.length < first + 4 ∧ decodePayload data frame first n = none) ∨
    (first + 4 ≤ data.length ∧ first + 4 + n < 2 ^ 64 ∧ data.length < first + 4 + n ∧
      decodePayload data frame first n =
        some ⟨0, { frame with payloadLen := n, payload := first + 4 }, data⟩) ∨
    (2 ^ 64 ≤ first + 4 + n ∧ decodePayload data frame first n = none) ∨
    ∃ mask : Mask, mask.bytes = slice data first 4 ∧ first + 4 + n ≤ data.length ∧
      decodePayload data frame first n =
        some ⟨intOfSize (first + 4 + n), { frame with payloadLen := n, payload := first + 4 },
          overwrite data (first + 4) (mask.apply 0 (slice data (first + 4) n))⟩ := by
  unfold decodePayload
  by_cases there : first + 4 ≤ data.length
  · rw [readBytes_inside there]
    simp only
    by_cases overflow : 2 ^ 64 ≤ first + 4 + n
    · -- the size comes round, and the loop runs on
      refine Or.inr (Or.inr (Or.inl ⟨overflow, ?_⟩))
      have wrapped : (first + 4 + n) % 2 ^ 64 < first + 4 := by omega
      rw [if_neg (by omega), unmask_outside _ (by omega) (by omega), Option.map_none]
    · rw [Nat.mod_eq_of_lt (by omega)]
      by_cases short : data.length < first + 4 + n
      · rw [if_pos short]
        exact Or.inr (Or.inl ⟨there, by omega, short, rfl⟩)
      · rw [if_neg short]
        have mask := @unmask_inside data ⟨slice data first 4, slice_length there⟩ (first + 4) n 0
          (by omega)
        simp only at mask
        rw [mask, Option.map_some]
        refine Or.inr (Or.inr (Or.inr ⟨⟨slice data first 4, slice_length there⟩, rfl, ?_, rfl⟩))
        omega
  · rw [readBytes_outside there]
    exact Or.inl ⟨by omega, rfl⟩

/-- Decoding stays inside the bytes that were received exactly when the front of the
frame is harmless. -/
theorem decode_inside_iff (frame : WsFrame) (bounded : data.length < 2 ^ 64) :
    Inside host frame data ↔ Harmless data := by
  cases head : frameHead data with
  | none =>
      apply iff_of_true
      · obtain ⟨ret, frame', eq, nonpos⟩ := decodePkg_none host head frame
        refine ⟨_, eq, rfl, fun pos => absurd pos (not_lt.mpr nonpos), ?_⟩
        intro first n known
        rw [head] at known
        cases known
      · intro first n known
        rw [head] at known
        cases known
  | some pair =>
      rcases pair with ⟨first, n⟩
      obtain ⟨inside, small, fits, _⟩ := frameHead_bounds head
      have decode := decodePkg_some host head frame
      have unique {first' n' : ℕ} (known : frameHead data = some (first', n')) :
          first' = first ∧ n' = n := by
        rw [head] at known
        cases known
        exact ⟨rfl, rfl⟩
      rcases decodePayload_cases { WsFrame.zero with
          fin := data.getD 0 0 &&& 0x80
          opcode := data.getD 0 0 &&& 0x0f } bounded small fits with
        ⟨short, eq⟩ | ⟨there, counts, short, eq⟩ | ⟨overflow, eq⟩ | ⟨mask, _, whole, eq⟩
      · -- the mask is not there
        apply iff_of_false
        · rintro ⟨decoded, defined, _⟩
          rw [decode, eq] at defined
          cases defined
        · intro harmless
          have there := (harmless first n head).1
          omega
      · -- the payload is not all there
        apply iff_of_true
        · refine ⟨_, decode.trans eq, rfl, fun pos => absurd pos (lt_irrefl 0), ?_⟩
          exact fun _ _ _ _ => ⟨rfl, rfl⟩
        · intro first' n' known
          obtain ⟨rfl, rfl⟩ := unique known
          exact ⟨there, counts, fun whole => absurd whole (not_le.mpr short)⟩
      · -- the size overflows
        apply iff_of_false
        · rintro ⟨decoded, defined, _⟩
          rw [decode, eq] at defined
          cases defined
        · intro harmless
          have counts := (harmless first n head).2.1
          omega
      · -- the frame is all there
        have length : (overwrite data (first + 4)
            (mask.apply 0 (slice data (first + 4) n))).length = data.length := by
          apply overwrite_length
          rw [mask.apply_length, slice_length whole]
          exact whole
        constructor
        · rintro ⟨decoded, defined, _, positive, _⟩
          rw [decode, eq] at defined
          cases defined
          intro first' n' known
          obtain ⟨rfl, rfl⟩ := unique known
          refine ⟨by omega, by omega, fun _ pos => ?_⟩
          obtain ⟨_, ⟨first'', n'', known', sum⟩, _⟩ := positive pos
          obtain ⟨rfl, rfl⟩ := unique known'
          have range := intOfSize_eq (first'' + 4 + n'')
          simp only at sum
          rw [sum] at range
          split at range <;> omega
        · intro harmless
          have sum (pos : 0 < intOfSize (first + 4 + n)) :
              intOfSize (first + 4 + n) = ↑(first + 4 + n) :=
            intOfSize_of_lt ((harmless first n head).2.2 whole pos)
          refine ⟨_, decode.trans eq, length, ?_, ?_⟩
          · intro pos
            refine ⟨?_, ⟨first, n, head, sum pos⟩, le_of_eq (sum pos).symm⟩
            simp only [sum pos]
            exact Int.ofNat_le.mpr whole
          · intro first' n' known short
            obtain ⟨rfl, rfl⟩ := unique known
            omega

end Decode

/-- A masked frame with a payload of two bytes, and another byte. -/
theorem decode_inside_small : Inside .little .zero
    [0x81, 0x82, 1, 2, 3, 4, 0x69, 0x6b, 0xff] ↔
      Harmless [0x81, 0x82, 1, 2, 3, 4, 0x69, 0x6b, 0xff] :=
  decode_inside_iff .little .zero (by decide)

/-- Of a frame whose first two bytes arrive alone, the mask is read from beyond them. -/
theorem decode_not_always_inside : ¬∀ (host : HostOrder) (frame : WsFrame) (data : List Byte),
    data.length < 2 ^ 64 → Inside host frame data := by
  intro always
  have outside : decodePkg .little true .zero [0x81, 0x80] = none := by decide
  obtain ⟨decoded, defined, _⟩ := always .little .zero [0x81, 0x80] (by decide)
  rw [outside] at defined
  cases defined

end ViabtcServer.WebSocket
