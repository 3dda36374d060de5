import ViabtcServer.Wire.Push
import Mathlib.Tactic.Ring

/-!
# Signed integers

Integers of 64 bits as `ut_pack.c` pushes them: the smallest ones as one byte,
the others as their absolute value with the sign in the highest bit of the last
byte. Where the absolute value needs that bit, a byte is added for the sign.
-/

namespace ViabtcServer.Wire

/-! ## Absolute values -/

/-- The loop over `absvalue`. -/
def absBytes (absvalue : ℕ) : List Byte :=
  if absvalue = 0 then [] else BitVec.ofNat 8 absvalue :: absBytes (absvalue / 256)
termination_by absvalue
decreasing_by omega

/-- The sign of `absvalue` in its last byte or behind it. -/
def addSign (neg : Bool) (buf : List Byte) : List Byte :=
  let last := buf.getD (buf.length - 1) 0
  if last &&& 0x80 ≠ 0 then buf ++ [if neg then 0x80 else 0x00]
  else if neg then buf.set (buf.length - 1) (last ||| 0x80)
  else buf

/-- `pack_oppushint_le`. -/
def packOppushintLe (dest : List Byte) (left : ℕ) (num : ℤ) : Packed :=
  if num = -2 ^ 63 then ⟨-1, dest, left⟩
  else if num = -1 then packChar dest left 0x4f
  else if num = 0 then packChar dest left 0x00
  else if 1 ≤ num ∧ num ≤ 16 then packChar dest left (BitVec.ofInt 8 (0x50 + num))
  else packOppush dest left (addSign (decide (num < 0)) (absBytes num.natAbs))

/-- The loop over the bytes of the buffer, the last of them first. -/
def absLoop (buf : List Byte) : ℕ → ℤ → ℤ
  | 0, absvalue => absvalue
  | i + 1, absvalue => absLoop buf i (absvalue * 256 + (buf.getD i 0).toNat)

/-- The number in the first `len` bytes of the buffer. -/
def signedValue (buf : List Byte) (len : ℕ) : ℤ :=
  let last := buf.getD (len - 1) 0
  let absvalue := absLoop (buf.set (len - 1) (last &&& ~~~0x80)) len 0
  if last &&& 0x80 ≠ 0 then -absvalue else absvalue

/-- `unpack_oppushint_le`. -/
def unpackOppushintLe (src : List Byte) (num : ℤ) : Unpacked ℤ :=
  match src with
  | [] => ⟨-1, src, num⟩
  | op :: rest =>
      if op = 0x00 then ⟨1, rest, 0⟩
      else if op = 0x4f then ⟨1, rest, -1⟩
      else if 0x50 < op.toNat ∧ op.toNat ≤ 0x60 then ⟨1, rest, op.toNat - 0x50⟩
      else if 8 < op.toNat then ⟨-1, src, num⟩
      else
        let push := unpackOppush src (List.replicate 8 0) 8
        if push.ret < 0 then ⟨push.ret, push.src, num⟩
        else ⟨push.ret, push.src, signedValue push.out.1 push.out.2⟩

theorem valueOf_append (bytes more : List Byte) :
    valueOf (bytes ++ more) = valueOf bytes + 256 ^ bytes.length * valueOf more := by
  induction bytes with
  | nil =>
      rw [List.nil_append, List.length_nil, Nat.pow_zero, Nat.one_mul]
      exact (Nat.zero_add _).symm
  | cons byte bytes ih =>
      change valueOf (bytes ++ more) * 256 + byte.toNat =
        valueOf bytes * 256 + byte.toNat + 256 ^ (bytes.length + 1) * valueOf more
      rw [ih]
      ring

theorem valueOf_absBytes (absvalue : ℕ) : valueOf (absBytes absvalue) = absvalue := by
  fun_induction absBytes absvalue with
  | case1 => rfl
  | case2 absvalue positive ih =>
      unfold valueOf
      rw [ih, BitVec.toNat_ofNat]
      omega

theorem absBytes_length {absvalue k : ℕ} (bound : absvalue < 256 ^ k) :
    (absBytes absvalue).length ≤ k := by
  induction k generalizing absvalue with
  | zero =>
      rw [Nat.pow_zero, Nat.lt_one_iff] at bound
      subst bound
      unfold absBytes
      exact le_refl 0
  | succ k ih =>
      unfold absBytes
      split_ifs with zero
      · exact Nat.zero_le _
      · rw [List.length_cons]
        apply Nat.succ_le_succ
        apply ih
        rw [Nat.pow_succ] at bound
        omega

/-! ## The sign -/

section Bits

variable (byte : Byte)

theorem high_bit_clear (clear : byte &&& 0x80 = 0) : byte &&& ~~~0x80 = byte := by
  revert byte
  decide +kernel

theorem high_bit_set (clear : byte &&& 0x80 = 0) :
    (byte ||| 0x80) &&& 0x80 ≠ 0 ∧ (byte ||| 0x80) &&& ~~~0x80 = byte := by
  revert byte
  decide +kernel

theorem le_of_high_bit (set : byte &&& 0x80 ≠ 0) : 128 ≤ byte.toNat := by
  revert byte
  decide +kernel

end Bits

theorem absLoop_eq {buf : List Byte} {n : ℕ} (inside : n ≤ buf.length) (absvalue : ℤ) :
    absLoop buf n absvalue = absvalue * 256 ^ n + valueOf (buf.take n) := by
  induction n generalizing absvalue with
  | zero =>
      rw [List.take_zero, pow_zero, mul_one]
      exact (add_zero absvalue).symm
  | succ n ih =>
      have next : buf.take (n + 1) = buf.take n ++ [buf.getD n 0] := by
        rw [List.take_succ_eq_append_getElem (by omega), List.getD_eq_getElem _ _ (by omega)]
      have value : valueOf [buf.getD n 0] = (buf.getD n 0).toNat := by
        unfold valueOf
        exact Nat.zero_add _
      unfold absLoop
      rw [ih (by omega), next, valueOf_append, value, List.length_take, Nat.min_eq_left (by omega)]
      push_cast
      ring

theorem signedValue_append (init : List Byte) (last : Byte) (rest : List Byte) :
    signedValue (init ++ last :: rest) (init.length + 1) =
      if last &&& 0x80 ≠ 0 then -(valueOf (init ++ [last &&& ~~~0x80]) : ℤ)
      else valueOf (init ++ [last &&& ~~~0x80]) := by
  have found : (init ++ last :: rest).getD (init.length + 1 - 1) 0 = last := by
    rw [Nat.add_sub_cancel, List.getD_append_right _ _ _ _ (le_refl _), Nat.sub_self]
    rfl
  have masked : (init ++ last :: rest).set (init.length + 1 - 1) (last &&& ~~~0x80) =
      init ++ [last &&& ~~~0x80] ++ rest := by
    rw [Nat.add_sub_cancel, List.set_append_right _ _ (le_refl _), Nat.sub_self, List.set_cons_zero,
      List.append_assoc]
    rfl
  have length : (init ++ [last &&& ~~~0x80]).length = init.length + 1 := by
    rw [List.length_append]
    rfl
  unfold signedValue
  simp only
  rw [found, masked, absLoop_eq (by rw [List.length_append, length]; omega), ← length,
    List.take_left, zero_mul, zero_add]

/-- The bytes of a number with its sign. -/
theorem addSign_value (neg : Bool) {absvalue : ℕ} (positive : absvalue ≠ 0)
    (bound : absvalue < 2 ^ 63) (rest : List Byte) :
    (1 ≤ (addSign neg (absBytes absvalue)).length ∧
      (addSign neg (absBytes absvalue)).length ≤ 8) ∧
    signedValue (addSign neg (absBytes absvalue) ++ rest)
      (addSign neg (absBytes absvalue)).length =
        if neg = true then -(absvalue : ℤ) else absvalue := by
  have value := valueOf_absBytes absvalue
  have length : (absBytes absvalue).length ≤ 8 := absBytes_length (by omega)
  rcases List.eq_nil_or_concat (absBytes absvalue) with none | ⟨init, last, split⟩
  · rw [none] at value
    exact absurd value.symm positive
  rw [split, List.concat_eq_append] at value length ⊢
  have found : (init ++ [last]).getD ((init ++ [last]).length - 1) 0 = last := by
    rw [List.length_append, List.length_singleton, Nat.add_sub_cancel,
      List.getD_append_right _ _ _ _ (le_refl _), Nat.sub_self]
    rfl
  rw [List.length_append, List.length_singleton] at length
  unfold addSign
  simp only
  rw [found]
  by_cases top : last &&& 0x80 = 0
  · rw [if_neg (not_not.mpr top)]
    cases neg with
    | false =>
        rw [if_neg Bool.false_ne_true, if_neg Bool.false_ne_true, List.length_append,
          List.length_singleton, List.append_assoc, List.singleton_append, signedValue_append,
          if_neg (not_not.mpr top), high_bit_clear last top, value]
        exact ⟨⟨by omega, length⟩, rfl⟩
    | true =>
        have changed : (init ++ [last]).set ((init ++ [last]).length - 1) (last ||| 0x80) =
            init ++ [last ||| 0x80] := by
          rw [List.length_append, List.length_singleton, Nat.add_sub_cancel,
            List.set_append_right _ _ (le_refl _), Nat.sub_self, List.set_cons_zero]
        rw [if_pos rfl, if_pos rfl, changed, List.length_append, List.length_singleton,
          List.append_assoc, List.singleton_append, signedValue_append,
          if_pos (high_bit_set last top).1, (high_bit_set last top).2, value]
        exact ⟨⟨by omega, length⟩, rfl⟩
  · -- with eight bytes the absolute value would be at least `2 ^ 63`
    have room : init.length < 7 := by
      by_contra long
      have high := le_of_high_bit last top
      have power : 256 ^ 7 ≤ 256 ^ init.length := Nat.pow_le_pow_right (by decide) (by omega)
      have large : 256 ^ 7 * 128 ≤ 256 ^ init.length * valueOf [last] := by
        apply Nat.mul_le_mul power
        unfold valueOf
        exact Nat.le_add_left_of_le high
      rw [valueOf_append] at value
      omega
    have sign (byte : Byte) (empty : byte &&& ~~~0x80 = 0) :
        valueOf (init ++ [last] ++ [byte &&& ~~~0x80]) = absvalue := by
      rw [empty, valueOf_append, value]
      exact Nat.add_zero absvalue
    rw [if_pos top, List.length_append, List.length_singleton, List.append_assoc _ _ rest,
      List.singleton_append, signedValue_append]
    constructor
    · rw [List.length_append, List.length_singleton]
      omega
    · cases neg with
      | false =>
          rw [if_neg Bool.false_ne_true, if_neg Bool.false_ne_true, if_neg (by decide),
            sign _ (by decide)]
      | true =>
          rw [if_pos rfl, if_pos rfl, if_pos (by decide), sign _ (by decide)]

/-! ## Round trip -/

/-- What `pack_oppushint_le` writes. -/
def intForm (num : ℤ) : List Byte :=
  if num = -1 then [0x4f]
  else if num = 0 then [0x00]
  else if 1 ≤ num ∧ num ≤ 16 then [BitVec.ofInt 8 (0x50 + num)]
  else
    let data := addSign (decide (num < 0)) (absBytes num.natAbs)
    pushForm data.length ++ data

theorem packs_oppush {data : List Byte} (small : data.length < 2 ^ 31 - 16) {buffer : List Byte}
    {size : ℕ} (room : data.length ≤ size) :
    Packs (fun dest left => packOppush dest left data) (fun src => unpackOppush src buffer size)
      (pushForm data.length ++ data) (overwrite buffer 0 data, data.length) where
  fits _ _ space := packOppush_of_le small space
  short _ _ none := packOppush_of_lt small none
  unpacks _ := unpackOppush_form small room

/-- A single byte. -/
theorem packs_char {pack : List Byte → ℕ → Packed} {num : ℤ} {c : Byte} {old : ℤ}
    (packed : ∀ dest left, pack dest left = packChar dest left c)
    (unpacked : ∀ rest, unpackOppushintLe (c :: rest) old = ⟨1, rest, num⟩) :
    Packs pack (fun src => unpackOppushintLe src old) [c] num where
  fits dest left space := by
    rw [packed]
    exact packChar_of_pos space c
  short dest left none := by
    rw [packed, packChar, put_of_lt none]
  unpacks rest := unpacked rest

theorem unpackOppushintLe_push {len : ℕ} (bounds : 1 ≤ len ∧ len ≤ 8) (rest : List Byte)
    (old : ℤ) : unpackOppushintLe (pushForm len ++ rest) old =
      let push := unpackOppush (pushForm len ++ rest) (List.replicate 8 0) 8
      if push.ret < 0 then ⟨push.ret, push.src, old⟩
      else ⟨push.ret, push.src, signedValue push.out.1 push.out.2⟩ := by
  have op : (BitVec.ofNat 8 len).toNat = len := by
    rw [BitVec.toNat_ofNat]
    omega
  have other (c : Byte) (large : c.toNat = 0 ∨ 8 < c.toNat) : BitVec.ofNat 8 len ≠ c := by
    rintro rfl
    rw [op] at large
    omega
  have form : pushForm len = [BitVec.ofNat 8 len] := if_pos (by omega)
  rw [form, List.singleton_append]
  unfold unpackOppushintLe
  simp only
  rw [if_neg (other _ (by decide)), if_neg (other _ (by decide)), op, if_neg (by omega),
    if_neg (by omega)]

theorem packs_oppushint {num : ℤ} (low : -2 ^ 63 < num) (high : num < 2 ^ 63) (old : ℤ) :
    Packs (fun dest left => packOppushintLe dest left num)
      (fun src => unpackOppushintLe src old) (intForm num) num := by
  have least : num ≠ -2 ^ 63 := ne_of_gt low
  unfold packOppushintLe intForm
  simp only [if_neg least]
  by_cases minusOne : num = -1
  · subst minusOne
    exact packs_char (fun _ _ => rfl) fun _ => rfl
  by_cases zero : num = 0
  · subst zero
    exact packs_char (fun _ _ => rfl) fun _ => rfl
  by_cases small : 1 ≤ num ∧ num ≤ 16
  · have op : ((BitVec.ofInt 8 (0x50 + num)).toNat : ℤ) = 0x50 + num := by
      rw [BitVec.toNat_ofInt]
      omega
    have other (c : Byte) (outside : c.toNat ≤ 0x50) : BitVec.ofInt 8 (0x50 + num) ≠ c := by
      rintro rfl
      omega
    simp only [if_neg minusOne, if_neg zero, if_pos small]
    apply packs_char (fun _ _ => rfl)
    intro rest
    unfold unpackOppushintLe
    simp only
    rw [if_neg (other _ (by decide)), if_neg (other _ (by decide)), if_pos (by omega), op,
      add_sub_cancel_left]
  · simp only [if_neg minusOne, if_neg zero, if_neg small]
    have sign := addSign_value (decide (num < 0)) (Int.natAbs_ne_zero.mpr zero) (by omega)
    generalize addSign (decide (num < 0)) (absBytes num.natAbs) = data at sign ⊢
    have bounds := (sign []).1
    have push : Packs (fun dest left => packOppush dest left data)
        (fun src => unpackOppush src (List.replicate 8 0) 8) (pushForm data.length ++ data)
        (overwrite (List.replicate 8 0) 0 data, data.length) :=
      packs_oppush (by omega) bounds.2
    constructor
    · exact push.fits
    · exact push.short
    · intro rest
      have read := push.unpacks rest
      rw [List.append_assoc] at read ⊢
      rw [unpackOppushintLe_push bounds, read]
      simp only
      rw [if_neg (by omega), overwrite_zero, (sign _).2]
      by_cases neg : num < 0
      · rw [if_pos (decide_eq_true neg)]
        congr
        omega
      · rw [if_neg (by rw [decide_eq_false neg]; exact Bool.false_ne_true)]
        congr
        omega

/-- Packing and unpacking are inverse, for numbers, strings, pushed bytes and pushed integers. -/
theorem pack_inverse {n : ℕ} (number : n < 2 ^ 64) {s : List Byte} (short : s.length < 2 ^ 31 - 16)
    {i : ℤ} (low : -2 ^ 63 < i) (high : i < 2 ^ 63) :
    (∃ form, ∀ old, Packs (fun dest left => packVarintLe dest left n)
      (fun src => unpackVarintLe src old) form n) ∧
    (∃ form, ∀ old, Packs (fun dest left => packVarstr dest left s)
      (fun src => unpackVarstr src old) form s) ∧
    (∃ form, ∀ buffer size, s.length ≤ size → Packs (fun dest left => packOppush dest left s)
      (fun src => unpackOppush src buffer size) form (overwrite buffer 0 s, s.length)) ∧
    ∃ form, ∀ old, Packs (fun dest left => packOppushintLe dest left i)
      (fun src => unpackOppushintLe src old) form i := by
  constructor
  · exact ⟨_, packs_varint number⟩
  constructor
  · exact ⟨_, packs_varstr short⟩
  constructor
  · exact ⟨_, fun _ _ room => packs_oppush short room⟩
  · exact ⟨_, packs_oppushint low high⟩

/-- A number of two bytes, a string of three and a negative integer whose sign takes a byte of
its own. -/
theorem pack_inverse_small :
    (∃ form, ∀ old, Packs (fun dest left => packVarintLe dest left 300)
      (fun src => unpackVarintLe src old) form 300) ∧
    (∃ form, ∀ old, Packs (fun dest left => packVarstr dest left [1, 2, 3])
      (fun src => unpackVarstr src old) form [1, 2, 3]) ∧
    (∃ form, ∀ buffer size, 3 ≤ size → Packs (fun dest left => packOppush dest left [1, 2, 3])
      (fun src => unpackOppush src buffer size) form (overwrite buffer 0 [1, 2, 3], 3)) ∧
    ∃ form, ∀ old, Packs (fun dest left => packOppushintLe dest left (-200))
      (fun src => unpackOppushintLe src old) form (-200) :=
  pack_inverse (by decide) (by decide) (by decide) (by decide)

end ViabtcServer.Wire
