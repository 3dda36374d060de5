import Mathlib.Data.List.Basic
import Mathlib.Data.Nat.Basic
import Mathlib.Algebra.Group.Nat.Defs

/-!
# Words in memory

Unsigned numbers of a fixed number of bytes, as a host keeps them in memory and
as they are sent, the least significant byte first.
-/

namespace ViabtcServer.Wire

abbrev Byte := BitVec 8

/-- A number of `n` bytes. -/
abbrev Word (n : ℕ) := BitVec (8 * n)

/-! ## Numbers and bytes -/

/-- The number some bytes stand for, the least significant byte first. -/
def valueOf : List Byte → ℕ
  | [] => 0
  | byte :: bytes => valueOf bytes * 256 + byte.toNat

/-- The `n` lowest bytes of a number, the least significant byte first. -/
def bytesOf : ℕ → ℕ → List Byte
  | 0, _ => []
  | n + 1, value => BitVec.ofNat 8 value :: bytesOf n (value / 256)

@[simp]
theorem bytesOf_length (n value : ℕ) : (bytesOf n value).length = n := by
  induction n generalizing value with
  | zero => rfl
  | succ n ih => exact congrArg Nat.succ (ih _)

theorem valueOf_lt (bytes : List Byte) : valueOf bytes < 256 ^ bytes.length := by
  induction bytes with
  | nil => exact Nat.one_pos
  | cons byte bytes ih =>
      have low := byte.isLt
      unfold valueOf
      rw [List.length_cons, Nat.pow_succ]
      omega

/-- Reading what was written. -/
theorem valueOf_bytesOf (n value : ℕ) : valueOf (bytesOf n value) = value % 256 ^ n := by
  induction n generalizing value with
  | zero =>
      rw [Nat.pow_zero, Nat.mod_one]
      rfl
  | succ n ih =>
      unfold bytesOf valueOf
      rw [ih, BitVec.toNat_ofNat]
      calc
        value / 256 % 256 ^ n * 256 + value % 256 =
            value % 256 + 256 * (value / 256 % 256 ^ n) := by
          rw [Nat.add_comm, Nat.mul_comm]
        _ = value % (256 * 256 ^ n) := Nat.mod_mul.symm
        _ = value % 256 ^ (n + 1) := by rw [Nat.pow_succ, Nat.mul_comm]

/-- Writing what was read. -/
theorem bytesOf_valueOf (bytes : List Byte) : bytesOf bytes.length (valueOf bytes) = bytes := by
  induction bytes with
  | nil => rfl
  | cons byte bytes ih =>
      have low := byte.isLt
      have high : (valueOf bytes * 256 + byte.toNat) / 256 = valueOf bytes := by omega
      have head : BitVec.ofNat 8 (valueOf bytes * 256 + byte.toNat) = byte := by
        apply BitVec.eq_of_toNat_eq
        rw [BitVec.toNat_ofNat]
        omega
      change BitVec.ofNat 8 (valueOf bytes * 256 + byte.toNat) ::
        bytesOf bytes.length ((valueOf bytes * 256 + byte.toNat) / 256) = _
      rw [high, head, ih]

/-! ## Byte order -/

/-- In which order a host keeps the bytes of a number. -/
inductive HostOrder
  | little
  | big
  deriving DecidableEq

namespace HostOrder

variable {n : ℕ} (host : HostOrder)

/-- Turn bytes between the order of the host and the little order. -/
def arrange (bytes : List Byte) : List Byte :=
  match host with
  | little => bytes
  | big => bytes.reverse

@[simp]
theorem arrange_length (bytes : List Byte) : (host.arrange bytes).length = bytes.length := by
  cases host with
  | little => rfl
  | big => exact List.length_reverse

@[simp]
theorem arrange_arrange (bytes : List Byte) : host.arrange (host.arrange bytes) = bytes := by
  cases host with
  | little => rfl
  | big => exact List.reverse_reverse bytes

/-- Read a number from memory. -/
def load (bytes : List Byte) : Word n :=
  BitVec.ofNat _ (valueOf (host.arrange bytes))

/-- The bytes of a number in memory. -/
def store (word : Word n) : List Byte :=
  host.arrange (bytesOf n word.toNat)

/-- `le16toh`, `le32toh`, `le64toh` and their inverses: reverse the bytes of a
number on a host that keeps them the other way round. -/
def le (word : Word n) : Word n :=
  match host with
  | little => word
  | big => load .little (store .big word)

@[simp]
theorem store_length (word : Word n) : (host.store word).length = n := by
  unfold store
  rw [arrange_length, bytesOf_length]

theorem pow_bytes (n : ℕ) : 256 ^ n = 2 ^ (8 * n) := by
  rw [Nat.pow_mul]

@[simp]
theorem load_store (word : Word n) : host.load (host.store word) = word := by
  unfold load store
  apply BitVec.eq_of_toNat_eq
  rw [arrange_arrange, valueOf_bytesOf, BitVec.toNat_ofNat, pow_bytes, Nat.mod_mod,
    Nat.mod_eq_of_lt word.isLt]

theorem store_load {bytes : List Byte} (length : bytes.length = n) :
    host.store (host.load bytes : Word n) = bytes := by
  have bound : valueOf (host.arrange bytes) < 2 ^ (8 * n) := by
    rw [← pow_bytes, ← length, ← host.arrange_length bytes]
    exact valueOf_lt _
  have written := bytesOf_valueOf (host.arrange bytes)
  rw [arrange_length, length] at written
  unfold load store
  rw [BitVec.toNat_ofNat, Nat.mod_eq_of_lt bound, written, arrange_arrange]

/-- Two numbers of as many bytes are one when their bytes are. -/
theorem load_inj {bytes bytes' : List Byte} (length : bytes.length = n)
    (length' : bytes'.length = n) (same : (host.load bytes : Word n) = host.load bytes') :
    bytes = bytes' := by
  rw [← host.store_load length, same, host.store_load length']

/-- What was sent is what the host reads with its bytes in order. -/
theorem le_load {bytes : List Byte} (length : bytes.length = n) :
    host.le (host.load bytes : Word n) = load .little bytes := by
  cases host with
  | little => rfl
  | big =>
      unfold le
      simp only
      rw [big.store_load length]

/-- What the host writes with its bytes in order is what is to be sent. -/
theorem store_le (word : Word n) : host.store (host.le word) = store .little word := by
  cases host with
  | little => rfl
  | big =>
      have reversed : store .big word = (store .little word).reverse := rfl
      have length : (store .little word).reverse.length = n := by
        rw [List.length_reverse, store_length]
      have swapped : big.le word = big.load (store .little word) := by
        unfold le
        simp only [reversed]
        rfl
      rw [swapped, big.store_load (store_length _ _)]

/-- `be16toh`, `be32toh`, `be64toh` and their inverses: reverse the bytes of a
number on a host that keeps the least significant first. -/
def be (word : Word n) : Word n :=
  match host with
  | little => load .big (store .little word)
  | big => word

theorem be_load {bytes : List Byte} (length : bytes.length = n) :
    host.be (host.load bytes : Word n) = load .big bytes := by
  cases host with
  | little =>
      unfold be
      simp only
      rw [little.store_load length]
  | big => rfl

theorem store_be (word : Word n) : host.store (host.be word) = store .big word := by
  cases host with
  | little =>
      have reversed : store .big word = (store .little word).reverse := rfl
      have length : (store .little word).reverse.length = n := by
        rw [List.length_reverse, store_length]
      have swapped : little.be word = little.load (store .little word).reverse := rfl
      rw [swapped, little.store_load length, reversed]
  | big => rfl

end HostOrder

/-! ## Parts of the memory -/

section Parts

variable {data bytes : List Byte} {off len i : ℕ} {byte : Byte}

/-- `len` bytes from `off` on. -/
def slice (data : List Byte) (off len : ℕ) : List Byte :=
  (data.drop off).take len

/-- `memcpy` of some bytes to `off`. -/
def overwrite (data : List Byte) (off : ℕ) (bytes : List Byte) : List Byte :=
  data.take off ++ bytes ++ data.drop (off + bytes.length)

theorem slice_length (inside : off + len ≤ data.length) : (slice data off len).length = len := by
  unfold slice
  rw [List.length_take, List.length_drop]
  omega

theorem take_append_slice (data : List Byte) (off len : ℕ) :
    data.take off ++ slice data off len = data.take (off + len) :=
  (List.take_add).symm

theorem slice_append_drop (data : List Byte) (off len : ℕ) :
    slice data off len ++ data.drop (off + len) = data.drop off := by
  unfold slice
  rw [← List.drop_drop, List.take_append_drop]

theorem slice_zero (data : List Byte) (len : ℕ) : slice data 0 len = data.take len :=
  rfl

theorem slice_append_head (length : bytes.length = len) : slice (bytes ++ data) 0 len = bytes := by
  subst length
  exact List.take_left

theorem slice_append_left (inside : off + len ≤ data.length) :
    slice (data ++ bytes) off len = slice data off len := by
  unfold slice
  rw [List.drop_append_of_le_length (by omega), List.take_append_of_le_length]
  rw [List.length_drop]
  omega

theorem slice_append_tail (before : bytes.length ≤ off) :
    slice (bytes ++ data) off len = slice data (off - bytes.length) len := by
  unfold slice
  rw [List.drop_append, List.drop_eq_nil_of_le before, List.nil_append]

theorem slice_set (outside : i < off ∨ off + len ≤ i) :
    slice (data.set i byte) off len = slice data off len := by
  unfold slice
  rcases outside with before | after
  · rw [List.drop_set_of_lt before]
  · rw [List.drop_set, if_neg (by omega), List.take_set_of_le (by omega)]

theorem overwrite_zero (data bytes : List Byte) :
    overwrite data 0 bytes = bytes ++ data.drop bytes.length := by
  unfold overwrite
  rw [List.take_zero, List.nil_append, Nat.zero_add]

/-- Reading what was written over. -/
theorem slice_overwrite (inside : off + bytes.length ≤ data.length) :
    slice (overwrite data off bytes) off bytes.length = bytes := by
  have before : (data.take off).length = off := by
    rw [List.length_take]
    omega
  unfold overwrite
  rw [List.append_assoc, slice_append_tail (by omega), before, Nat.sub_self, slice_append_head rfl]

theorem slice_drop (data : List Byte) (off len n : ℕ) :
    (slice data off len).drop n = slice data (off + n) (len - n) := by
  unfold slice
  rw [List.drop_take, List.drop_drop]

/-- Writing behind a part of the memory. -/
theorem overwrite_append (length : bytes.length = off) (more : List Byte) :
    overwrite (bytes ++ data) off more = bytes ++ (more ++ data.drop more.length) := by
  subst length
  unfold overwrite
  rw [List.take_left, List.drop_append, List.drop_eq_nil_of_le (Nat.le_add_right _ _),
    List.nil_append, Nat.add_sub_cancel_left, List.append_assoc]

theorem overwrite_length (inside : off + bytes.length ≤ data.length) :
    (overwrite data off bytes).length = data.length := by
  unfold overwrite
  simp only [List.length_append, List.length_take, List.length_drop]
  omega

theorem slice_getElem? {k : ℕ} (inside : k < len) : (slice data off len)[k]? = data[off + k]? := by
  unfold slice
  rw [List.getElem?_take_of_lt inside, List.getElem?_drop]

/-- A changed byte is seen. -/
theorem slice_set_ne (first : off ≤ i) (last : i < off + len) (inside : i < data.length)
    (changed : byte ≠ data[i]) : slice (data.set i byte) off len ≠ slice data off len := by
  intro same
  have seen : (slice (data.set i byte) off len)[i - off]? = (slice data off len)[i - off]? := by
    rw [same]
  have there : off + (i - off) = i := by omega
  rw [slice_getElem? (by omega), slice_getElem? (by omega), there, List.getElem?_set_self inside,
    List.getElem?_eq_getElem inside] at seen
  exact changed (Option.some.inj seen)

/-- Unless it is written over. -/
theorem overwrite_set_inside (first : off ≤ i) (last : i < off + bytes.length) :
    overwrite (data.set i byte) off bytes = overwrite data off bytes := by
  unfold overwrite
  rw [List.take_set_of_le first, List.drop_set_of_lt last]

theorem overwrite_set_outside (inside : off + bytes.length ≤ data.length)
    (outside : i < off ∨ off + bytes.length ≤ i) :
    overwrite (data.set i byte) off bytes = (overwrite data off bytes).set i byte := by
  have before : (data.take off).length = off := by
    rw [List.length_take]
    omega
  unfold overwrite
  rcases outside with left | right
  · rw [List.take_set, List.drop_set_of_lt (by omega), List.append_assoc, List.append_assoc,
      List.set_append_left _ _ (by omega)]
  · rw [List.take_set_of_le (by omega), List.drop_set, if_neg (by omega),
      List.set_append_right _ _ (by rw [List.length_append]; omega), List.length_append, before]

end Parts

end ViabtcServer.Wire
