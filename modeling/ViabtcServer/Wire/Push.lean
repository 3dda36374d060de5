import ViabtcServer.Wire.Pack
import Mathlib.Data.Nat.Bitwise

/-!
# Pushes

The rest of `ut_pack.c`: bytes behind their length as a script pushes them, and
signed integers, which are pushed as their absolute value with the sign in the
highest bit of the last byte. Where the absolute value needs that bit, a byte is
added for the sign.
-/

namespace ViabtcServer.Wire

/-! ## Bytes behind their length -/

/-- `pack_oppush`. -/
def packOppush (dest : List Byte) (left : ℕ) (data : List Byte) : Packed :=
  let len := data.length
  if len ≤ 0x4b then
    if left < 1 + len then ⟨-1, dest, left⟩
    else finish (packChar dest left (BitVec.ofNat 8 len))
  else if len ≤ 0xff then
    if left < 2 + len then ⟨-1, dest, left⟩
    else
      let op := packChar dest left 0x4c
      finish (packChar op.dest op.left (BitVec.ofNat 8 len))
  else if len ≤ 0xffff then
    if left < 3 + len then ⟨-1, dest, left⟩
    else
      let op := packChar dest left 0x4d
      finish (packUint16Le op.dest op.left len)
  else if len ≤ 0xffffffff then
    if left < 5 + len then ⟨-1, dest, left⟩
    else
      let op := packChar dest left 0x4e
      finish (packUint32Le op.dest op.left len)
  else ⟨-1, dest, left⟩
where
  /-- The bytes themselves, and how much was written since `pos`. -/
  finish (size : Packed) : Packed :=
    let buf := packBuf size.dest size.left data
    { buf with ret := intOfSize (left - buf.left) }

/-- `unpack_oppush`, which leaves the buffer and its `*size`. -/
def unpackOppush (src dest : List Byte) (size : ℕ) : Unpacked (List Byte × ℕ) :=
  let op := unpackChar src 0
  if op.ret < 0 then ⟨-1, op.src, dest, size⟩
  else if op.out.toNat ≤ 0x4b then finish op.src op.out.toNat
  else if op.out = 0x4c then
    let len := unpackChar op.src 0
    if len.ret < 0 then ⟨-1, len.src, dest, size⟩ else finish len.src len.out.toNat
  else if op.out = 0x4d then
    let len := unpackUint16Le op.src 0
    if len.ret < 0 then ⟨-1, len.src, dest, size⟩ else finish len.src len.out
  else if op.out = 0x4e then
    let len := unpackUint32Le op.src 0
    if len.ret < 0 then ⟨-1, len.src, dest, size⟩ else finish len.src len.out
  else ⟨-1, op.src, dest, size⟩
where
  /-- The bytes themselves, and how much was read since `pos`. -/
  finish (rest : List Byte) (len : ℕ) : Unpacked (List Byte × ℕ) :=
    if rest.length < len ∨ size < len then ⟨-1, rest, dest, size⟩
    else
      let buf := unpackBuf rest dest len
      ⟨intOfSize (src.length - buf.src.length), buf.src, buf.out, len⟩

/-- What `pack_oppush` writes before the bytes. -/
def pushForm (len : ℕ) : List Byte :=
  if len ≤ 0x4b then [BitVec.ofNat 8 len]
  else if len ≤ 0xff then [0x4c, BitVec.ofNat 8 len]
  else if len ≤ 0xffff then 0x4d :: bytesOf 2 len
  else 0x4e :: bytesOf 4 len

theorem pushForm_length (len : ℕ) : 1 ≤ (pushForm len).length ∧ (pushForm len).length ≤ 5 := by
  unfold pushForm
  split_ifs <;> simp only [List.length_cons, List.length_nil, bytesOf_length] <;> omega

section Packing

variable {dest data : List Byte} {left : ℕ}

theorem packChar_of_pos (space : 1 ≤ left) (c : Byte) :
    packChar dest left c = ⟨1, dest ++ [c], left - 1⟩ :=
  put_of_le (Nat.lt_of_le_of_lt (le_refl 1) (by decide)) space

/-- The bytes behind their length. -/
theorem packOppush_finish {form : List Byte} (length : 1 ≤ form.length ∧ form.length ≤ 5)
    (small : data.length < 2 ^ 31 - 16) (space : (form ++ data).length ≤ left) (ret : ℤ) :
    packOppush.finish left data ⟨ret, dest ++ form, left - form.length⟩ =
      ⟨(form ++ data).length, dest ++ (form ++ data), left - (form ++ data).length⟩ := by
  rw [List.length_append] at space
  have written : packBuf (dest ++ form) (left - form.length) data =
      ⟨data.length, dest ++ form ++ data, left - form.length - data.length⟩ :=
    put_of_le (by omega) (by omega)
  have count : left - (left - form.length - data.length) = (form ++ data).length := by
    rw [List.length_append]
    omega
  unfold packOppush.finish
  simp only
  rw [written]
  simp only
  rw [count, intOfSize_of_lt (by rw [List.length_append]; omega), List.append_assoc,
    List.length_append, Nat.sub_sub]

theorem packOppush_of_le (small : data.length < 2 ^ 31 - 16)
    (space : (pushForm data.length ++ data).length ≤ left) :
    packOppush dest left data = ⟨(pushForm data.length ++ data).length,
      dest ++ (pushForm data.length ++ data),
      left - (pushForm data.length ++ data).length⟩ := by
  have finished : ∀ ret, packOppush.finish left data
      ⟨ret, dest ++ pushForm data.length, left - (pushForm data.length).length⟩ = _ :=
    packOppush_finish (pushForm_length data.length) small space
  rw [List.length_append] at space
  unfold packOppush
  unfold pushForm at finished space ⊢
  by_cases one : data.length ≤ 0x4b
  · simp only [if_pos one, List.length_singleton] at finished space ⊢
    rw [if_neg (by omega), packChar_of_pos (by omega)]
    exact finished 1
  by_cases two : data.length ≤ 0xff
  · simp only [if_neg one, if_pos two, List.length_cons, List.length_nil] at finished space ⊢
    have op : packChar dest left 0x4c = ⟨1, dest ++ [0x4c], left - 1⟩ :=
      packChar_of_pos (by omega) _
    rw [if_neg (by omega), op]
    simp only
    rw [packChar_of_pos (by omega), List.append_assoc, Nat.sub_sub]
    exact finished 1
  by_cases three : data.length ≤ 0xffff
  · simp only [if_neg one, if_neg two, if_pos three, List.length_cons, bytesOf_length]
      at finished space ⊢
    rw [if_neg (by omega), packChar_of_pos (by omega)]
    unfold packUint16Le
    simp only
    rw [if_neg (by omega), List.append_assoc, Nat.sub_sub]
    exact finished 2
  · simp only [if_neg one, if_neg two, if_neg three, List.length_cons, bytesOf_length]
      at finished space ⊢
    rw [if_pos (by omega), if_neg (by omega), packChar_of_pos (by omega)]
    unfold packUint32Le
    simp only
    rw [if_neg (by omega), List.append_assoc, Nat.sub_sub]
    exact finished 4

theorem packOppush_of_lt (small : data.length < 2 ^ 31 - 16)
    (short : left < (pushForm data.length ++ data).length) :
    (packOppush dest left data).ret = -1 := by
  rw [List.length_append] at short
  unfold packOppush
  unfold pushForm at short
  by_cases one : data.length ≤ 0x4b
  · simp only [if_pos one, List.length_singleton] at short ⊢
    rw [if_pos (by omega)]
  by_cases two : data.length ≤ 0xff
  · simp only [if_neg one, if_pos two, List.length_cons, List.length_nil] at short ⊢
    rw [if_pos (by omega)]
  by_cases three : data.length ≤ 0xffff
  · simp only [if_neg one, if_neg two, if_pos three, List.length_cons, bytesOf_length] at short ⊢
    rw [if_pos (by omega)]
  · simp only [if_neg one, if_neg two, if_neg three, List.length_cons, bytesOf_length] at short ⊢
    rw [if_pos (by omega), if_pos (by omega)]

end Packing

section Unpacking

variable {buffer data rest : List Byte} {size : ℕ}

theorem unpackOppush_finish {form : List Byte} (length : 1 ≤ form.length ∧ form.length ≤ 5)
    (small : data.length < 2 ^ 31 - 16) (room : data.length ≤ size) :
    unpackOppush.finish (form ++ (data ++ rest)) buffer size (data ++ rest) data.length =
      ⟨(form ++ data).length, rest, overwrite buffer 0 data, data.length⟩ := by
  have enough : ¬ ((data ++ rest).length < data.length ∨ size < data.length) := by
    rw [List.length_append]
    omega
  have taken : unpackBuf (data ++ rest) buffer data.length =
      ⟨intOfSize data.length, rest, overwrite buffer 0 data⟩ := by
    unfold unpackBuf
    rw [if_neg (by rw [List.length_append]; omega), List.drop_left, List.take_left]
  have count : (form ++ (data ++ rest)).length - rest.length = (form ++ data).length := by
    simp only [List.length_append]
    omega
  unfold unpackOppush.finish
  rw [if_neg enough, taken]
  simp only
  rw [count, intOfSize_of_lt (by rw [List.length_append]; omega)]

theorem unpackOppush_short {op : Byte} (short : op.toNat ≤ 0x4b) :
    unpackOppush (op :: rest) buffer size =
      unpackOppush.finish (op :: rest) buffer size rest op.toNat :=
  if_pos short

theorem unpackOppush_one (len : Byte) :
    unpackOppush (0x4c :: len :: rest) buffer size =
      unpackOppush.finish (0x4c :: len :: rest) buffer size rest len.toNat :=
  rfl

theorem unpackOppush_two {src : List Byte} {len : ℕ}
    (read : unpackUint16Le src 0 = ⟨2, rest, len⟩) :
    unpackOppush (0x4d :: src) buffer size =
      unpackOppush.finish (0x4d :: src) buffer size rest len := by
  change (if (unpackUint16Le src 0).ret < 0 then (⟨-1, (unpackUint16Le src 0).src, buffer, size⟩ :
      Unpacked (List Byte × ℕ)) else unpackOppush.finish (0x4d :: src) buffer size
        (unpackUint16Le src 0).src (unpackUint16Le src 0).out) = _
  rw [read]
  rfl

theorem unpackOppush_four {src : List Byte} {len : ℕ}
    (read : unpackUint32Le src 0 = ⟨4, rest, len⟩) :
    unpackOppush (0x4e :: src) buffer size =
      unpackOppush.finish (0x4e :: src) buffer size rest len := by
  change (if (unpackUint32Le src 0).ret < 0 then (⟨-1, (unpackUint32Le src 0).src, buffer, size⟩ :
      Unpacked (List Byte × ℕ)) else unpackOppush.finish (0x4e :: src) buffer size
        (unpackUint32Le src 0).src (unpackUint32Le src 0).out) = _
  rw [read]
  rfl

theorem unpackUint32Le_bytes {num : ℕ} (bound : num < 256 ^ 4) (old : ℕ) :
    unpackUint32Le (bytesOf 4 num ++ rest) old = ⟨4, rest, num⟩ := by
  unfold unpackUint32Le
  rw [if_neg (by rw [List.length_append, bytesOf_length]; omega),
    List.drop_left' (bytesOf_length 4 num), slice_append_head (bytesOf_length 4 num),
    valueOf_bytesOf, Nat.mod_eq_of_lt bound]

/-- The length in front decides how the rest is read. -/
theorem unpackOppush_form (small : data.length < 2 ^ 31 - 16) (room : data.length ≤ size) :
    unpackOppush (pushForm data.length ++ data ++ rest) buffer size =
      ⟨(pushForm data.length ++ data).length, rest, overwrite buffer 0 data, data.length⟩ := by
  have finished : unpackOppush.finish (pushForm data.length ++ (data ++ rest)) buffer size
      (data ++ rest) data.length = _ :=
    unpackOppush_finish (pushForm_length data.length) small room
  have byte (bound : data.length < 256) : (BitVec.ofNat 8 data.length).toNat = data.length := by
    rw [BitVec.toNat_ofNat]
    omega
  rw [List.append_assoc]
  unfold pushForm at finished ⊢
  by_cases one : data.length ≤ 0x4b
  · rw [if_pos one] at finished ⊢
    rw [← finished, List.singleton_append, unpackOppush_short (by rw [byte (by omega)]; exact one),
      byte (by omega)]
  by_cases two : data.length ≤ 0xff
  · rw [if_neg one, if_pos two] at finished ⊢
    rw [← finished, List.cons_append, List.singleton_append, unpackOppush_one, byte (by omega)]
  by_cases three : data.length ≤ 0xffff
  · rw [if_neg one, if_neg two, if_pos three] at finished ⊢
    rw [← finished]
    apply unpackOppush_two
    exact unpackUint16Le_bytes (by omega) (by rw [List.length_append]; omega) 0
  · rw [if_neg one, if_neg two, if_neg three] at finished ⊢
    rw [← finished]
    apply unpackOppush_four
    exact unpackUint32Le_bytes (by omega) 0

end Unpacking

end ViabtcServer.Wire
