import ViabtcServer.Wire.Cast
import ViabtcServer.Wire.Word

/-!
# Packing

`ut_pack.c` as far as numbers, strings and plain bytes. A pack function is given
the bytes already written and the space after them, an unpack function the bytes
that are left. Numbers go lowest byte first; `ut_misc.h` has `htole16` and its
like for hosts that keep the lowest byte first only, where they change nothing.
-/

namespace ViabtcServer.Wire

/-! ## What a call leaves -/

/-- `*dest` and `*left` after a pack function, and what it returns. -/
structure Packed where
  ret : ℤ
  dest : List Byte
  left : ℕ
  deriving DecidableEq

/-- `*src` with as many bytes as are left after an unpack function, what it returns and what it
wrote through its last pointer. -/
structure Unpacked (α : Type) where
  ret : ℤ
  src : List Byte
  out : α
  deriving DecidableEq

/-- Packing a value succeeds exactly where there is space for these bytes and leaves them, and
unpacking takes just them and gives the value back. -/
structure Packs {α : Type} (pack : List Byte → ℕ → Packed) (unpack : List Byte → Unpacked α)
    (form : List Byte) (value : α) : Prop where
  fits : ∀ dest left, form.length ≤ left →
    pack dest left = ⟨form.length, dest ++ form, left - form.length⟩
  short : ∀ dest left, left < form.length → (pack dest left).ret = -1
  unpacks : ∀ rest, unpack (form ++ rest) = ⟨form.length, rest, value⟩

/-- Write some bytes if there is space for them. -/
def put (dest : List Byte) (left : ℕ) (bytes : List Byte) : Packed :=
  if left < bytes.length then ⟨-1, dest, left⟩
  else ⟨intOfSize bytes.length, dest ++ bytes, left - bytes.length⟩

section Put

variable {dest bytes : List Byte} {left : ℕ}

theorem put_of_le (small : bytes.length < 2 ^ 31) (space : bytes.length ≤ left) :
    put dest left bytes = ⟨bytes.length, dest ++ bytes, left - bytes.length⟩ := by
  unfold put
  rw [if_neg (Nat.not_lt.mpr space), intOfSize_of_lt small]

theorem put_of_lt (short : left < bytes.length) : put dest left bytes = ⟨-1, dest, left⟩ := by
  unfold put
  rw [if_pos short]

end Put

/-! ## Numbers -/

/-- `pack_varint_le`. -/
def packVarintLe (dest : List Byte) (left num : ℕ) : Packed :=
  if num < 0xfd then put dest left [BitVec.ofNat 8 num]
  else if num < 0xffff then put dest left (0xfd :: bytesOf 2 num)
  else if num < 0xffffffff then put dest left (0xfe :: bytesOf 4 num)
  else put dest left (0xff :: bytesOf 8 num)

/-- A number behind its mark, in a form of `space` bytes. -/
def unpackMarked (src : List Byte) (num space : ℕ) : Unpacked ℕ :=
  if src.length < space then ⟨-1, src, num⟩
  else ⟨space, src.drop space, valueOf (slice src 1 (space - 1))⟩

/-- `unpack_varint_le`. -/
def unpackVarintLe (src : List Byte) (num : ℕ) : Unpacked ℕ :=
  match src with
  | [] => ⟨-1, src, num⟩
  | mark :: rest =>
      if mark.toNat < 0xfd then ⟨1, rest, mark.toNat⟩
      else if mark = 0xfd then unpackMarked src num 3
      else if mark = 0xfe then unpackMarked src num 5
      else unpackMarked src num 9

/-- `pack_uint16_le`, which asks for the space of a number of four bytes. -/
def packUint16Le (dest : List Byte) (left num : ℕ) : Packed :=
  if left < 4 then ⟨-1, dest, left⟩ else ⟨2, dest ++ bytesOf 2 num, left - 2⟩

/-- `unpack_uint16_le`, which asks for four bytes as well. -/
def unpackUint16Le (src : List Byte) (num : ℕ) : Unpacked ℕ :=
  if src.length < 4 then ⟨-1, src, num⟩ else ⟨2, src.drop 2, valueOf (slice src 0 2)⟩

theorem unpackUint16Le_refused {src : List Byte} (few : src.length < 4) (old : ℕ) :
    unpackUint16Le src old = ⟨-1, src, old⟩ := by
  unfold unpackUint16Le
  rw [if_pos few]

theorem unpackUint16Le_bytes {num : ℕ} {rest : List Byte} (bound : num < 256 ^ 2)
    (more : 2 ≤ rest.length) (old : ℕ) :
    unpackUint16Le (bytesOf 2 num ++ rest) old = ⟨2, rest, num⟩ := by
  unfold unpackUint16Le
  rw [if_neg (by rw [List.length_append, bytesOf_length]; omega),
    List.drop_left' (bytesOf_length 2 num), slice_append_head (bytesOf_length 2 num),
    valueOf_bytesOf, Nat.mod_eq_of_lt bound]

/-- What was read, where anything was. -/
theorem unpackUint16Le_read {src : List Byte} {old : ℕ}
    (read : ¬ (unpackUint16Le src old).ret < 0) :
    4 ≤ src.length ∧
      src = bytesOf 2 (unpackUint16Le src old).out ++ (unpackUint16Le src old).src ∧
      (unpackUint16Le src old).out < 2 ^ 16 := by
  by_cases few : src.length < 4
  · rw [unpackUint16Le_refused few] at read
    exact absurd (show (-1 : ℤ) < 0 by decide) read
  · have length : (slice src 0 2).length = 2 := slice_length (by omega)
    have bytes := bytesOf_valueOf (slice src 0 2)
    have bound := valueOf_lt (slice src 0 2)
    rw [length] at bytes bound
    unfold unpackUint16Le
    rw [if_neg few]
    simp only
    rw [bytes, slice_zero, List.take_append_drop]
    exact ⟨by omega, rfl, bound⟩

/-- `pack_uint32_le`. -/
def packUint32Le (dest : List Byte) (left num : ℕ) : Packed :=
  if left < 4 then ⟨-1, dest, left⟩ else ⟨4, dest ++ bytesOf 4 num, left - 4⟩

/-- `unpack_uint32_le`. -/
def unpackUint32Le (src : List Byte) (num : ℕ) : Unpacked ℕ :=
  if src.length < 4 then ⟨-1, src, num⟩ else ⟨4, src.drop 4, valueOf (slice src 0 4)⟩

/-! ## Bytes -/

/-- `pack_buf`. -/
def packBuf (dest : List Byte) (left : ℕ) (data : List Byte) : Packed :=
  put dest left data

/-- `unpack_buf`, into a buffer. -/
def unpackBuf (src dest : List Byte) (len : ℕ) : Unpacked (List Byte) :=
  if src.length < len then ⟨-1, src, dest⟩
  else ⟨intOfSize len, src.drop len, overwrite dest 0 (src.take len)⟩

/-- `pack_char`. -/
def packChar (dest : List Byte) (left : ℕ) (c : Byte) : Packed :=
  put dest left [c]

/-- `unpack_char`. -/
def unpackChar (src : List Byte) (c : Byte) : Unpacked Byte :=
  match src with
  | [] => ⟨-1, src, c⟩
  | byte :: rest => ⟨1, rest, byte⟩

/-- `pack_varstr`. Where the length fits and the string does not, the length is written. -/
def packVarstr (dest : List Byte) (left : ℕ) (str : List Byte) : Packed :=
  let size := packVarintLe dest left str.length
  if size.ret < 0 then { size with ret := -1 }
  else if size.left < str.length then { size with ret := -1 }
  else ⟨intOfSize (sizeOfInt size.ret + str.length), size.dest ++ str, size.left - str.length⟩

/-- `unpack_varstr`. -/
def unpackVarstr (src str : List Byte) : Unpacked (List Byte) :=
  let size := unpackVarintLe src 0
  if size.ret < 0 then ⟨-1, size.src, str⟩
  else if size.src.length < size.out then ⟨-1, size.src, str⟩
  else ⟨intOfSize (sizeOfInt size.ret + size.out), size.src.drop size.out,
    size.src.take size.out⟩

/-! ## Numbers of any size -/

/-- What `pack_varint_le` writes. -/
def varintForm (num : ℕ) : List Byte :=
  if num < 0xfd then [BitVec.ofNat 8 num]
  else if num < 0xffff then 0xfd :: bytesOf 2 num
  else if num < 0xffffffff then 0xfe :: bytesOf 4 num
  else 0xff :: bytesOf 8 num

theorem packVarintLe_eq_put (dest : List Byte) (left num : ℕ) :
    packVarintLe dest left num = put dest left (varintForm num) := by
  unfold packVarintLe varintForm
  split_ifs <;> rfl

theorem varintForm_length (num : ℕ) :
    1 ≤ (varintForm num).length ∧ (varintForm num).length ≤ 9 := by
  unfold varintForm
  split_ifs <;> simp only [List.length_cons, List.length_nil, bytesOf_length] <;> omega

theorem unpackMarked_form (mark : Byte) (n : ℕ) {num : ℕ} (bound : num < 256 ^ n)
    (rest : List Byte) (old : ℕ) :
    unpackMarked (mark :: bytesOf n num ++ rest) old (n + 1) =
      ⟨(mark :: bytesOf n num).length, rest, num⟩ := by
  have long : ¬ (mark :: bytesOf n num ++ rest).length < n + 1 := by
    simp only [List.length_append, List.length_cons, bytesOf_length]
    omega
  have behind : slice (mark :: bytesOf n num ++ rest) 1 n =
      slice (bytesOf n num ++ rest) 0 n := rfl
  have after : (mark :: bytesOf n num ++ rest).drop (n + 1) = rest := by
    apply List.drop_left'
    rw [List.length_cons, bytesOf_length]
  unfold unpackMarked
  rw [if_neg long, Nat.add_sub_cancel, behind, slice_append_head (bytesOf_length n num),
    valueOf_bytesOf, Nat.mod_eq_of_lt bound, after, List.length_cons, bytesOf_length]

theorem unpackVarintLe_form {num : ℕ} (bound : num < 2 ^ 64) (rest : List Byte) (old : ℕ) :
    unpackVarintLe (varintForm num ++ rest) old = ⟨(varintForm num).length, rest, num⟩ := by
  unfold varintForm
  split_ifs with one two four
  · have value : (BitVec.ofNat 8 num).toNat = num := by
      rw [BitVec.toNat_ofNat]
      omega
    rw [List.singleton_append]
    unfold unpackVarintLe
    simp only
    rw [value, if_pos one]
    rfl
  · exact unpackMarked_form 0xfd 2 (by omega) rest old
  · exact unpackMarked_form 0xfe 4 (by omega) rest old
  · exact unpackMarked_form 0xff 8 (by omega) rest old

theorem packs_varint {num : ℕ} (bound : num < 2 ^ 64) (old : ℕ) :
    Packs (fun dest left => packVarintLe dest left num) (fun src => unpackVarintLe src old)
      (varintForm num) num where
  fits dest left space := by
    rw [packVarintLe_eq_put]
    apply put_of_le _ space
    exact Nat.lt_of_le_of_lt (varintForm_length num).2 (by decide)
  short dest left none := by
    rw [packVarintLe_eq_put, put_of_lt none]
  unpacks rest := unpackVarintLe_form bound rest old

/-! ## Strings -/

theorem packs_varstr {str : List Byte} (small : str.length < 2 ^ 31 - 16) (old : List Byte) :
    Packs (fun dest left => packVarstr dest left str) (fun src => unpackVarstr src old)
      (varintForm str.length ++ str) str := by
  have head : Packs (fun dest left => packVarintLe dest left str.length)
      (fun src => unpackVarintLe src 0) (varintForm str.length) str.length :=
    packs_varint (by omega) 0
  have width := varintForm_length str.length
  have total : intOfSize (sizeOfInt (varintForm str.length).length + str.length) =
      ((varintForm str.length ++ str).length : ℕ) := by
    rw [sizeOfInt_natCast (by omega), intOfSize_of_lt (by omega), List.length_append]
  have positive : ¬ ((varintForm str.length).length : ℤ) < 0 := by
    omega
  constructor
  · intro dest left space
    rw [List.length_append] at space
    unfold packVarstr
    rw [head.fits dest left (by omega)]
    simp only
    rw [if_neg positive, if_neg (by omega), total, List.append_assoc, List.length_append,
      Nat.sub_sub]
  · intro dest left none
    rw [List.length_append] at none
    unfold packVarstr
    by_cases room : (varintForm str.length).length ≤ left
    · rw [head.fits dest left room]
      simp only
      rw [if_neg positive, if_pos (by omega)]
    · have failed := head.short dest left (by omega)
      simp only at failed ⊢
      rw [failed, if_pos (by decide)]
  · intro rest
    have taken := head.unpacks (str ++ rest)
    unfold unpackVarstr
    simp only at taken ⊢
    rw [List.append_assoc, taken]
    simp only
    rw [if_neg positive, if_neg (by rw [List.length_append]; omega), total, List.drop_left,
      List.take_left]

end ViabtcServer.Wire
