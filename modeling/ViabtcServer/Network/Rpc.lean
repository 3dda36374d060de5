import ViabtcServer.Network.Crc32
import Mathlib.Algebra.Group.Int.Defs

/-!
# RPC packages

`ut_rpc.c` and what `ut_rpc_svr.c` takes from a package. A package is a header of
36 bytes, an extension and a body, whose sizes the header tells.
-/

namespace ViabtcServer.Network

open Wire

/-! ## The header -/

/-- `RPC_PKG_MAGIC`. -/
def rpcPkgMagic : Word 4 :=
  0x70656562

/-- `RPC_PKG_HEAD_SIZE`. -/
abbrev rpcPkgHeadSize : ℕ :=
  36

/-- `RPC_PKG_MAX_BODY_SIZE`: `sizeof(rpc_pkg)` is 52. -/
def rpcPkgMaxBodySize : ℕ :=
  (2 ^ 32 - 1) / 2 - (2 ^ 16 - 1) - 52

/-- The fields of `rpc_pkg` up to the pointers. -/
structure RpcHead where
  magic : Word 4
  command : Word 4
  pkgType : Word 2
  result : Word 4
  crc32 : Word 4
  sequence : Word 4
  reqId : Word 8
  bodySize : Word 4
  extSize : Word 2
  deriving DecidableEq

namespace RpcHead

variable (host : HostOrder)

/-- The fields of the header at the start of `data`. -/
def read (data : List Byte) : RpcHead where
  magic := host.load (slice data 0 4)
  command := host.load (slice data 4 4)
  pkgType := host.load (slice data 8 2)
  result := host.load (slice data 10 4)
  crc32 := host.load (slice data 14 4)
  sequence := host.load (slice data 18 4)
  reqId := host.load (slice data 22 8)
  bodySize := host.load (slice data 30 4)
  extSize := host.load (slice data 34 2)

/-- A header in memory. -/
def image (head : RpcHead) : List Byte :=
  host.store head.magic ++ host.store head.command ++ host.store head.pkgType ++
    host.store head.result ++ host.store head.crc32 ++ host.store head.sequence ++
    host.store head.reqId ++ host.store head.bodySize ++ host.store head.extSize

/-- Assign the fields of the header at the start of `data`. -/
def put (head : RpcHead) (data : List Byte) : List Byte :=
  overwrite data 0 (head.image host)

/-- Every field with its bytes the other way round, if the host needs it. -/
def le (head : RpcHead) : RpcHead where
  magic := host.le head.magic
  command := host.le head.command
  pkgType := host.le head.pkgType
  result := host.le head.result
  crc32 := host.le head.crc32
  sequence := host.le head.sequence
  reqId := host.le head.reqId
  bodySize := host.le head.bodySize
  extSize := host.le head.extSize

/-- How many bytes the package has, by its header. -/
def size (head : RpcHead) : ℕ :=
  rpcPkgHeadSize + head.extSize.toNat + head.bodySize.toNat

/-- The same in a `uint32_t`. -/
def size32 (head : RpcHead) : Word 4 :=
  BitVec.ofNat 32 head.size

end RpcHead

/-! ## Decoding and receiving -/

/-- `rpc_decode` of `max` bytes: what it returns, and the bytes as it leaves
them. -/
def rpcDecode (host : HostOrder) (data : List Byte) : ℤ × List Byte :=
  if data.length < rpcPkgHeadSize then (0, data)
  else
    let pkg := RpcHead.read host data
    if host.le pkg.magic ≠ rpcPkgMagic then (-1, data)
    else
      let pkgSize : Word 4 := BitVec.ofNat 32
        (rpcPkgHeadSize + (host.le pkg.extSize).toNat + (host.le pkg.bodySize).toNat)
      if data.length < pkgSize.toNat then (0, data)
      else
        let crc32 := host.le pkg.crc32
        let pkg := { pkg with crc32 := 0 }
        let data := pkg.put host data
        if crc32 ≠ generateCrc32c data pkgSize.toNat then (-3, data)
        else
          let pkg := { pkg with crc32 := crc32 }
          let pkg :=
            { pkg with
              magic := host.le pkg.magic
              command := host.le pkg.command
              pkgType := host.le pkg.pkgType
              result := host.le pkg.result
              sequence := host.le pkg.sequence
              reqId := host.le pkg.reqId
              bodySize := host.le pkg.bodySize
              extSize := host.le pkg.extSize }
          -- the `uint32_t` is returned as an `int`
          (pkgSize.toInt, pkg.put host data)

/-- A package as `on_recv_pkg` hands it on: its header, and where in the bytes
received its extension and its body start. -/
structure RecvPkg where
  head : RpcHead
  ext : ℕ
  body : ℕ

/-- `on_recv_pkg` of `ut_rpc_svr.c`. -/
def onRecvPkg (host : HostOrder) (data : List Byte) : RecvPkg where
  head := RpcHead.read host data
  ext := rpcPkgHeadSize
  body := rpcPkgHeadSize + (RpcHead.read host data).extSize.toNat

/-- The extension and the body are among the first `size` bytes. -/
def RecvPkg.Inside (pkg : RecvPkg) (size : ℕ) : Prop :=
  pkg.ext + pkg.head.extSize.toNat ≤ size ∧ pkg.body + pkg.head.bodySize.toNat ≤ size

/-! ## A header in memory -/

namespace RpcHead

variable {host : HostOrder} {head : RpcHead} {data rest : List Byte}

theorem image_length (host : HostOrder) (head : RpcHead) : (head.image host).length = 36 := by
  simp [image]

/-- Reading the fields assigned. -/
theorem read_image (host : HostOrder) (head : RpcHead) (rest : List Byte) :
    read host (head.image host ++ rest) = head := by
  unfold read image
  simp (disch := simp) only [List.append_assoc, slice_append_tail, slice_append_head,
    HostOrder.store_length, HostOrder.load_store, Nat.reduceSub]

/-- What follows a header is not read. -/
theorem read_append (enough : 36 ≤ data.length) (rest : List Byte) :
    read host (data ++ rest) = read host data := by
  unfold read
  simp (disch := omega) only [slice_append_left]

theorem drop_image (host : HostOrder) (head : RpcHead) (rest : List Byte) :
    (head.image host ++ rest).drop 36 = rest := by
  rw [← image_length host head, List.drop_left]

/-- What was sent is what the host reads with its bytes in order. -/
theorem le_read (host : HostOrder) (enough : 36 ≤ data.length) :
    (read host data).le host = read .little data := by
  have field (n off : ℕ) (inside : off + n ≤ 36) :
      host.le (host.load (slice data off n) : Word n) =
        HostOrder.load .little (slice data off n) := by
    apply host.le_load
    apply slice_length
    omega
  unfold le read
  simp only
  rw [field 4 0 (by decide), field 4 4 (by decide), field 2 8 (by decide), field 4 10 (by decide),
    field 4 14 (by decide), field 4 18 (by decide), field 8 22 (by decide), field 4 30 (by decide),
    field 2 34 (by decide)]

theorem put_eq (host : HostOrder) (head : RpcHead) (data : List Byte) :
    head.put host data = head.image host ++ data.drop 36 := by
  unfold put
  rw [overwrite_zero, image_length]

theorem put_length (head : RpcHead) (enough : 36 ≤ data.length) :
    (head.put host data).length = data.length := by
  unfold put
  apply overwrite_length
  rw [image_length]
  omega

@[simp]
theorem read_put (host : HostOrder) (head : RpcHead) (data : List Byte) :
    read host (head.put host data) = head := by
  rw [put_eq, read_image]

theorem put_put (head' : RpcHead) : head.put host (head'.put host data) = head.put host data := by
  rw [put_eq, put_eq, put_eq, drop_image]

end RpcHead

/-! ## What decoding returns -/

/-- Bytes with the checksum of their header zero. -/
def zeroCrc (data : List Byte) : List Byte :=
  overwrite data 14 [0, 0, 0, 0]

section Decode

variable {host : HostOrder} {data : List Byte}

theorem zeroCrc_length (enough : 36 ≤ data.length) : (zeroCrc data).length = data.length := by
  unfold zeroCrc
  apply overwrite_length
  simp only [List.length_cons, List.length_nil]
  omega

/-- Assigning zero to the checksum. -/
theorem put_zeroCrc (host : HostOrder) (enough : 36 ≤ data.length) :
    ({ RpcHead.read host data with crc32 := 0 } : RpcHead).put host data = zeroCrc data := by
  have field (n off : ℕ) (inside : off + n ≤ 36) :
      host.store (host.load (slice data off n) : Word n) = slice data off n := by
    apply host.store_load
    apply slice_length
    omega
  have zero : host.store (0 : Word 4) = [0, 0, 0, 0] := by
    cases host <;> rfl
  have before : slice data 0 4 ++ slice data 4 4 ++ slice data 8 2 ++ slice data 10 4 =
      data.take 14 := by
    rw [slice_zero, take_append_slice, take_append_slice, take_append_slice]
  have after : slice data 18 4 ++ (slice data 22 8 ++ (slice data 30 4 ++ (slice data 34 2 ++
      data.drop 36))) = data.drop 18 := by
    rw [slice_append_drop data 34 2, slice_append_drop data 30 4, slice_append_drop data 22 8,
      slice_append_drop data 18 4]
  rw [RpcHead.put_eq]
  unfold RpcHead.image RpcHead.read zeroCrc overwrite
  simp only
  rw [field 4 0 (by decide), field 4 4 (by decide), field 2 8 (by decide), field 4 10 (by decide),
    field 4 18 (by decide), field 8 22 (by decide), field 4 30 (by decide), field 2 34 (by decide),
    zero, before]
  simp only [List.append_assoc, after]
  rfl

/-- `rpc_decode` by the fields as they were sent. -/
theorem rpcDecode_eq (enough : 36 ≤ data.length) : rpcDecode host data =
    if (RpcHead.read .little data).magic ≠ rpcPkgMagic then (-1, data)
    else if data.length < (RpcHead.read .little data).size32.toNat then (0, data)
    else if (RpcHead.read .little data).crc32 ≠
        generateCrc32c (zeroCrc data) (RpcHead.read .little data).size32.toNat then
      (-3, zeroCrc data)
    else ((RpcHead.read .little data).size32.toInt,
      (RpcHead.read .little data).put host data) := by
  have short : ¬ data.length < rpcPkgHeadSize := not_lt.mpr enough
  rw [← RpcHead.le_read host enough]
  unfold rpcDecode
  rw [if_neg short]
  have last (head : RpcHead) : head.put host (zeroCrc data) = head.put host data := by
    rw [← put_zeroCrc host enough, RpcHead.put_put]
  simp only [put_zeroCrc host enough, last]
  rfl

theorem rpcDecode_short (short : data.length < 36) : rpcDecode host data = (0, data) := by
  unfold rpcDecode
  rw [if_pos short]

/-- What decoding checks before it accepts a package. -/
structure Accepted (data : List Byte) : Prop where
  enough : 36 ≤ data.length
  magic : (RpcHead.read .little data).magic = rpcPkgMagic
  fits : (RpcHead.read .little data).size32.toNat ≤ data.length
  crc32 : (RpcHead.read .little data).crc32 =
    generateCrc32c (zeroCrc data) (RpcHead.read .little data).size32.toNat

theorem rpcDecode_accepted (accepted : Accepted data) : rpcDecode host data =
    ((RpcHead.read .little data).size32.toInt, (RpcHead.read .little data).put host data) := by
  rw [rpcDecode_eq accepted.enough, if_neg (not_not_intro accepted.magic),
    if_neg (not_lt.mpr accepted.fits), if_neg (not_not_intro accepted.crc32)]

theorem accepted_of_pos (pos : 0 < (rpcDecode host data).1) : Accepted data := by
  by_cases enough : 36 ≤ data.length
  · rw [rpcDecode_eq enough] at pos
    by_cases magic : (RpcHead.read .little data).magic ≠ rpcPkgMagic
    · rw [if_pos magic] at pos
      exact absurd pos (by decide : ¬ (0 : ℤ) < -1)
    rw [if_neg magic] at pos
    by_cases fits : data.length < (RpcHead.read .little data).size32.toNat
    · rw [if_pos fits] at pos
      exact absurd pos (by decide : ¬ (0 : ℤ) < 0)
    rw [if_neg fits] at pos
    by_cases crc32 : (RpcHead.read .little data).crc32 ≠
        generateCrc32c (zeroCrc data) (RpcHead.read .little data).size32.toNat
    · rw [if_pos crc32] at pos
      exact absurd pos (by decide : ¬ (0 : ℤ) < -3)
    exact ⟨enough, not_not.mp magic, not_lt.mp fits, not_not.mp crc32⟩
  · rw [rpcDecode_short (not_le.mp enough)] at pos
    exact absurd pos (by decide : ¬ (0 : ℤ) < 0)

/-! ## Lengths -/

/-- A package that is accepted has the size its header tells, all of it received
and under the checksum, and a package with more than was received is not. -/
structure LengthSound (host : HostOrder) (data : List Byte) : Prop where
  received : 0 < (rpcDecode host data).1 → (rpcDecode host data).1 ≤ data.length
  size : 0 < (rpcDecode host data).1 →
    (rpcDecode host data).1 = (RpcHead.read .little data).size
  crc32 : 0 < (rpcDecode host data).1 →
    (RpcHead.read .little data).crc32 = generateCrc32c (zeroCrc data) (rpcDecode host data).1.toNat
  inside : 0 < (rpcDecode host data).1 →
    (onRecvPkg host (rpcDecode host data).2).Inside (rpcDecode host data).1.toNat
  oversized : data.length < (RpcHead.read .little data).size → (rpcDecode host data).1 ≤ 0

/-- The sizes in the header add up to more than a `uint32_t` holds, and the
package is sound for what it holds of them. -/
structure Wraps (data : List Byte) : Prop where
  enough : 36 ≤ data.length
  magic : (RpcHead.read .little data).magic = rpcPkgMagic
  more : 2 ^ 32 < (RpcHead.read .little data).size
  fits : (RpcHead.read .little data).size - 2 ^ 32 ≤ data.length
  crc32 : (RpcHead.read .little data).crc32 =
    generateCrc32c (zeroCrc data) ((RpcHead.read .little data).size - 2 ^ 32)

theorem RpcHead.size_lt (head : RpcHead) : head.size < 2 ^ 32 + 2 ^ 16 + 36 := by
  have ext := head.extSize.isLt
  have body := head.bodySize.isLt
  unfold RpcHead.size rpcPkgHeadSize
  omega

theorem RpcHead.size32_toNat (head : RpcHead) : head.size32.toNat = head.size % 2 ^ 32 :=
  BitVec.toNat_ofNat _ _

theorem Wraps.decode (host : HostOrder) (wraps : Wraps data) : (rpcDecode host data).1 =
    ((RpcHead.read .little data).size : ℤ) - 2 ^ 32 := by
  have bound := (RpcHead.read .little data).size_lt
  have mod := (RpcHead.read .little data).size32_toNat
  have more := wraps.more
  have low : (RpcHead.read .little data).size32.toNat =
      (RpcHead.read .little data).size - 2 ^ 32 := by
    omega
  have accepted : Accepted data :=
    ⟨wraps.enough, wraps.magic, low ▸ wraps.fits, low ▸ wraps.crc32⟩
  rw [rpcDecode_accepted accepted, BitVec.toInt_eq_toNat_cond]
  simp only
  split <;> omega

theorem lengthSound_of_not_wraps (host : HostOrder) (wraps : ¬ Wraps data) :
    LengthSound host data := by
  have bound := (RpcHead.read .little data).size_lt
  have mod := (RpcHead.read .little data).size32_toNat
  have whole (pos : 0 < (rpcDecode host data).1) : Accepted data ∧
      (RpcHead.read .little data).size32.toNat = (RpcHead.read .little data).size ∧
      (rpcDecode host data).1 = (RpcHead.read .little data).size := by
    have accepted := accepted_of_pos pos
    have fits := accepted.fits
    have crc32 := accepted.crc32
    rw [rpcDecode_accepted accepted, BitVec.toInt_eq_toNat_cond] at pos
    rw [rpcDecode_accepted accepted, BitVec.toInt_eq_toNat_cond]
    have exact_ : (RpcHead.read .little data).size32.toNat =
        (RpcHead.read .little data).size := by
      by_contra ne
      have more : 2 ^ 32 ≤ (RpcHead.read .little data).size := by omega
      have low : (RpcHead.read .little data).size32.toNat =
          (RpcHead.read .little data).size - 2 ^ 32 := by omega
      have nonzero : (RpcHead.read .little data).size32.toNat ≠ 0 := by
        intro zero
        rw [zero] at pos
        exact absurd pos (Int.lt_irrefl 0)
      exact wraps ⟨accepted.enough, accepted.magic, by omega, low ▸ fits, low ▸ crc32⟩
    refine ⟨accepted, exact_, ?_⟩
    simp only at pos ⊢
    split at pos
    · rename_i small
      rw [if_pos small, exact_]
    · omega
  constructor
  · intro pos
    obtain ⟨accepted, exact_, eq⟩ := whole pos
    rw [eq, ← exact_]
    exact_mod_cast accepted.fits
  · exact fun pos => (whole pos).2.2
  · intro pos
    obtain ⟨accepted, exact_, eq⟩ := whole pos
    rw [eq, Int.toNat_natCast, ← exact_]
    exact accepted.crc32
  · intro pos
    obtain ⟨accepted, _, eq⟩ := whole pos
    rw [eq, Int.toNat_natCast, rpcDecode_accepted accepted]
    unfold onRecvPkg RecvPkg.Inside
    simp only [RpcHead.read_put]
    unfold RpcHead.size
    omega
  · intro oversized
    by_contra pos
    obtain ⟨accepted, exact_, eq⟩ := whole (Int.not_le.mp pos)
    have fits := accepted.fits
    omega

/-- Lengths are sound for all bytes but those whose sizes wrap around. -/
theorem rpc_decode_length (host : HostOrder) (data : List Byte) :
    LengthSound host data ↔ ¬ Wraps data := by
  constructor
  · intro sound wraps
    have size := sound.size
    have more := wraps.more
    rw [wraps.decode host] at size
    omega
  · exact lengthSound_of_not_wraps host

/-- A header that claims a body of almost `2 ^ 32` bytes, with the checksum of
its first byte. -/
def wrappedPkg : List Byte :=
  ({ magic := rpcPkgMagic, command := 1, pkgType := 0, result := 0, crc32 := 0x71beeff9,
     sequence := 0, reqId := 0, bodySize := 0xffffffdd, extSize := 0 } : RpcHead).image .little

/-- Its 36 bytes are accepted as a package of one byte. -/
theorem wrappedPkg_accepted :
    (rpcDecode .little wrappedPkg).1 = 1 ∧
      ¬ ∀ host data, LengthSound host data := by
  have one : (rpcDecode .little wrappedPkg).1 = 1 := by
    decide +kernel
  refine ⟨one, fun sound => ?_⟩
  have size := (sound .little wrappedPkg).size (one ▸ Int.one_pos)
  rw [one] at size
  exact absurd size (by decide +kernel)

end Decode

end ViabtcServer.Network
