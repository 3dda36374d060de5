import ViabtcServer.Network.Rpc

/-!
# Packing RPC packages

`rpc_pack`, and that `rpc_decode` undoes it, waits for the rest of a package, and
notices a changed bit.
-/

namespace ViabtcServer.Network

open Wire

/-- `rpc_pkg` with what its pointers point to. -/
structure RpcPkg extends RpcHead where
  ext : List Byte
  body : List Byte
  ext_length : ext.length = extSize.toNat
  body_length : body.length = bodySize.toNat

/-- `malloc`; `fill` is what the memory held before. -/
def malloc (fill : ℕ → Byte) (size : ℕ) : List Byte :=
  (List.range size).map fill

/-- The buffer for a package of `pkgSize` bytes: a larger one if it is too small. -/
def rpcReserve (fill : ℕ → Byte) (sendBuf : List Byte) (pkgSize : Word 4) : List Byte :=
  if sendBuf.length < pkgSize.toNat then malloc fill (pkgSize * 2).toNat else sendBuf

/-- Copy header, extension and body into the buffer. -/
def rpcCopy (host : HostOrder) (pkg : RpcPkg) (sendBuf : List Byte) : List Byte :=
  let sendBuf := pkg.toRpcHead.put host sendBuf
  let sendBuf := if pkg.extSize ≠ 0 then overwrite sendBuf rpcPkgHeadSize pkg.ext else sendBuf
  if pkg.bodySize ≠ 0 then
    overwrite sendBuf (rpcPkgHeadSize + pkg.extSize.toNat) pkg.body
  else sendBuf

/-- Turn the header in the buffer into the one that is sent, its checksum last. -/
def rpcSeal (host : HostOrder) (sendBuf : List Byte) (pkgSize : Word 4) : List Byte :=
  let pkg := RpcHead.read host sendBuf
  let pkg :=
    { pkg with
      magic := host.le rpcPkgMagic
      command := host.le pkg.command
      pkgType := host.le pkg.pkgType
      result := host.le pkg.result
      sequence := host.le pkg.sequence
      reqId := host.le pkg.reqId
      bodySize := host.le pkg.bodySize
      extSize := host.le pkg.extSize }
  let pkg := { pkg with crc32 := 0 }
  let sendBuf := pkg.put host sendBuf
  let pkg := { pkg with crc32 := host.le (generateCrc32c sendBuf pkgSize.toNat) }
  pkg.put host sendBuf

/-- `rpc_pack` with the buffer the last call left: the size of the package and the
buffer at whose start it stands, or `none` for -1. -/
def rpcPack (host : HostOrder) (fill : ℕ → Byte) (sendBuf : List Byte) (pkg : RpcPkg) :
    Option (ℕ × List Byte) :=
  if rpcPkgMaxBodySize < pkg.bodySize.toNat then none
  else
    let pkgSize : Word 4 :=
      BitVec.ofNat 32 (rpcPkgHeadSize + pkg.extSize.toNat + pkg.bodySize.toNat)
    let sendBuf := rpcReserve fill sendBuf pkgSize
    let sendBuf := rpcCopy host pkg sendBuf
    some (pkgSize.toNat, rpcSeal host sendBuf pkgSize)

/-! ## What is packed -/

namespace RpcPkg

variable {host : HostOrder} {fill : ℕ → Byte} {sendBuf rest : List Byte} {pkg : RpcPkg}

/-- The header that is sent, with some checksum. -/
def header (pkg : RpcPkg) (crc32 : Word 4) : RpcHead :=
  { pkg.toRpcHead with magic := rpcPkgMagic, crc32 := crc32 }

/-- A package as it is sent, with some checksum. -/
def sent (pkg : RpcPkg) (crc32 : Word 4) : List Byte :=
  (pkg.header crc32).image .little ++ pkg.ext ++ pkg.body

/-- The checksum of a package. -/
def checksum (pkg : RpcPkg) : Word 4 :=
  generateCrc32c (pkg.sent 0) pkg.size

/-- A package as it is sent. -/
def bytes (pkg : RpcPkg) : List Byte :=
  pkg.sent pkg.checksum

theorem sent_length (pkg : RpcPkg) (crc32 : Word 4) : (pkg.sent crc32).length = pkg.size := by
  unfold sent RpcHead.size
  rw [List.length_append, List.length_append, RpcHead.image_length, pkg.ext_length,
    pkg.body_length]

/-- The sizes of a package that is packed do not wrap around. -/
theorem size_lt (small : pkg.bodySize.toNat ≤ rpcPkgMaxBodySize) : pkg.size < 2 ^ 31 := by
  have ext := pkg.extSize.isLt
  unfold rpcPkgMaxBodySize at small
  unfold RpcHead.size rpcPkgHeadSize
  omega

theorem image_le (head : RpcHead) : (head.le host).image host = head.image .little := by
  unfold RpcHead.le RpcHead.image
  simp only [HostOrder.store_le]

/-- Bytes are copied behind others, or there are none. -/
theorem copy_eq {n off : ℕ} {bytes more buf : List Byte} {size : Word n}
    (length : bytes.length = off) (count : more.length = size.toNat) :
    (if size ≠ 0 then overwrite (bytes ++ buf) off more else bytes ++ buf) =
      bytes ++ (more ++ buf.drop more.length) := by
  by_cases none_ : size = 0
  · have empty : more = [] := by
      apply List.eq_nil_of_length_eq_zero
      rw [count, none_]
      rfl
    rw [if_neg (not_not_intro none_), empty]
    rfl
  · rw [if_pos none_, overwrite_append length]

theorem rpcCopy_eq (host : HostOrder) (pkg : RpcPkg) (sendBuf : List Byte) :
    ∃ rest, rpcCopy host pkg sendBuf =
      pkg.toRpcHead.image host ++ (pkg.ext ++ (pkg.body ++ rest)) := by
  have front : (pkg.toRpcHead.image host ++ pkg.ext).length =
      rpcPkgHeadSize + pkg.extSize.toNat := by
    rw [List.length_append, RpcHead.image_length, pkg.ext_length]
  unfold rpcCopy
  simp only
  rw [RpcHead.put_eq, copy_eq (RpcHead.image_length _ _) pkg.ext_length, ← List.append_assoc,
    copy_eq front pkg.body_length, List.append_assoc]
  exact ⟨_, rfl⟩

theorem checksum_eq (pkg : RpcPkg) (rest : List Byte) :
    generateCrc32c (pkg.sent 0 ++ rest) pkg.size = pkg.checksum :=
  generateCrc32c_append (Nat.le_of_eq (pkg.sent_length 0).symm)

/-- The header that is sent. -/
theorem rpcSeal_eq (host : HostOrder) (pkg : RpcPkg) (rest : List Byte) {pkgSize : Word 4}
    (size : pkgSize.toNat = pkg.size) :
    rpcSeal host (pkg.toRpcHead.image host ++ (pkg.ext ++ (pkg.body ++ rest))) pkgSize =
      pkg.bytes ++ rest := by
  have zero : (0 : Word 4) = host.le 0 := by
    cases host <;> rfl
  -- assigning the header that is sent, whatever its checksum
  have put (crc32 : Word 4) (head : RpcHead) (host' : HostOrder) (rest : List Byte) :
      RpcHead.put host
        { RpcHead.le host pkg.toRpcHead with
          magic := host.le rpcPkgMagic, crc32 := host.le crc32 } (head.image host' ++ rest) =
      (pkg.header crc32).image .little ++ rest := by
    rw [RpcHead.put_eq, RpcHead.drop_image]
    exact congrArg (· ++ rest) (image_le (pkg.header crc32))
  have first := put 0 pkg.toRpcHead host (pkg.ext ++ (pkg.body ++ rest))
  have sent (crc32 : Word 4) : (pkg.header crc32).image .little ++
      (pkg.ext ++ (pkg.body ++ rest)) = pkg.sent crc32 ++ rest := by
    unfold sent
    simp only [List.append_assoc]
  rw [← zero] at first
  unfold rpcSeal
  rw [RpcHead.read_image]
  unfold RpcHead.le at first put
  simp only at first put ⊢
  rw [first, put, size]
  simp only [sent, checksum_eq]
  rfl

/-- Packing puts the package at the start of the buffer. -/
theorem rpcPack_eq (host : HostOrder) (fill : ℕ → Byte) (sendBuf : List Byte)
    (small : pkg.bodySize.toNat ≤ rpcPkgMaxBodySize) :
    ∃ rest, rpcPack host fill sendBuf pkg = some (pkg.size, pkg.bytes ++ rest) := by
  have fits := size_lt small
  have size : (BitVec.ofNat 32 (rpcPkgHeadSize + pkg.extSize.toNat + pkg.bodySize.toNat)).toNat =
      pkg.size := by
    rw [BitVec.toNat_ofNat]
    apply Nat.mod_eq_of_lt
    change pkg.size < 2 ^ 32
    omega
  unfold rpcPack
  rw [if_neg (not_lt.mpr small)]
  rcases rpcCopy_eq host pkg (rpcReserve fill sendBuf
    (BitVec.ofNat 32 (rpcPkgHeadSize + pkg.extSize.toNat + pkg.bodySize.toNat))) with ⟨rest, copied⟩
  refine ⟨rest, ?_⟩
  simp only
  rw [copied, rpcSeal_eq host pkg rest size, size]

/-! ## Decoding what was packed -/

theorem bytes_append (pkg : RpcPkg) (rest : List Byte) : pkg.bytes ++ rest =
    (pkg.header pkg.checksum).image .little ++ (pkg.ext ++ (pkg.body ++ rest)) := by
  unfold bytes sent
  simp only [List.append_assoc]

theorem bytes_length (pkg : RpcPkg) : pkg.bytes.length = pkg.size :=
  pkg.sent_length _

theorem le_size (pkg : RpcPkg) : 36 ≤ pkg.size :=
  Nat.le_trans (Nat.le_add_right _ _) (Nat.le_add_right _ _)

theorem read_bytes (pkg : RpcPkg) (rest : List Byte) :
    RpcHead.read .little (pkg.bytes ++ rest) = pkg.header pkg.checksum := by
  rw [bytes_append, RpcHead.read_image]

theorem size32_eq (small : pkg.bodySize.toNat ≤ rpcPkgMaxBodySize) (crc32 : Word 4) :
    (pkg.header crc32).size32.toNat = pkg.size := by
  have fits := size_lt small
  rw [RpcHead.size32_toNat]
  apply Nat.mod_eq_of_lt
  change pkg.size < 2 ^ 32
  omega

theorem zeroCrc_bytes (pkg : RpcPkg) (rest : List Byte) :
    zeroCrc (pkg.bytes ++ rest) = pkg.sent 0 ++ rest := by
  have enough : 36 ≤ (pkg.bytes ++ rest).length := by
    rw [List.length_append, bytes_length]
    exact Nat.le_trans pkg.le_size (Nat.le_add_right _ _)
  rw [← put_zeroCrc .little enough, read_bytes, RpcHead.put_eq, bytes_append,
    RpcHead.drop_image]
  unfold sent
  simp only [List.append_assoc]
  rfl

theorem accepted (small : pkg.bodySize.toNat ≤ rpcPkgMaxBodySize) (rest : List Byte) :
    Accepted (pkg.bytes ++ rest) := by
  have long : pkg.size ≤ (pkg.bytes ++ rest).length := by
    rw [List.length_append, bytes_length]
    exact Nat.le_add_right _ _
  constructor
  · exact Nat.le_trans pkg.le_size long
  · rw [read_bytes]
    rfl
  · rw [read_bytes, size32_eq small]
    exact long
  · rw [read_bytes, size32_eq small, zeroCrc_bytes, checksum_eq]
    rfl

/-- A package as the decoder leaves it. -/
def decoded (host : HostOrder) (pkg : RpcPkg) : List Byte :=
  (pkg.header pkg.checksum).image host ++ pkg.ext ++ pkg.body

theorem rpcDecode_bytes (host : HostOrder)
    (small : pkg.bodySize.toNat ≤ rpcPkgMaxBodySize) (rest : List Byte) :
    rpcDecode host (pkg.bytes ++ rest) = (↑pkg.size, pkg.decoded host ++ rest) := by
  have fits := size_lt small
  have size := size32_eq small pkg.checksum
  rw [rpcDecode_accepted (accepted small rest), read_bytes, RpcHead.put_eq, bytes_append,
    RpcHead.drop_image, BitVec.toInt_eq_toNat_of_lt (by omega), size]
  unfold decoded
  simp only [List.append_assoc]

/-- What is received of it. -/
theorem onRecvPkg_decoded (pkg : RpcPkg) (rest : List Byte) :
    (onRecvPkg host (pkg.decoded host ++ rest)).head = pkg.header pkg.checksum ∧
      slice (pkg.decoded host ++ rest) (onRecvPkg host (pkg.decoded host ++ rest)).ext
        pkg.extSize.toNat = pkg.ext ∧
      slice (pkg.decoded host ++ rest) (onRecvPkg host (pkg.decoded host ++ rest)).body
        pkg.bodySize.toNat = pkg.body := by
  have assoc : pkg.decoded host ++ rest =
      (pkg.header pkg.checksum).image host ++ (pkg.ext ++ (pkg.body ++ rest)) := by
    unfold decoded
    simp only [List.append_assoc]
  have front := RpcHead.image_length host (pkg.header pkg.checksum)
  have head : RpcHead.read host (pkg.decoded host ++ rest) = pkg.header pkg.checksum := by
    rw [assoc, RpcHead.read_image]
  have body : (onRecvPkg host (pkg.decoded host ++ rest)).body = 36 + pkg.extSize.toNat := by
    unfold onRecvPkg
    rw [head]
    rfl
  refine ⟨head, ?_, ?_⟩
  · rw [assoc]
    change slice _ 36 _ = _
    rw [slice_append_tail (Nat.le_of_eq front), front, Nat.sub_self,
      slice_append_head pkg.ext_length]
  · rw [body, assoc, slice_append_tail (by rw [front]; exact Nat.le_add_right _ _), front,
      Nat.add_sub_cancel_left, slice_append_tail (Nat.le_of_eq pkg.ext_length), pkg.ext_length,
      Nat.sub_self, slice_append_head pkg.body_length]

/-- A part of a package is not touched. -/
theorem rpcDecode_prefix (small : pkg.bodySize.toNat ≤ rpcPkgMaxBodySize) {part : List Byte}
    (start : part <+: pkg.bytes) (strict : part ≠ pkg.bytes) :
    rpcDecode host part = (0, part) := by
  obtain ⟨missing, whole⟩ := start
  have less : part.length < pkg.size := by
    rw [← bytes_length, ← whole, List.length_append, Nat.lt_add_right_iff_pos,
      List.length_pos_iff]
    rintro rfl
    exact strict (List.append_nil part ▸ whole)
  by_cases enough : 36 ≤ part.length
  · have read : RpcHead.read .little part = pkg.header pkg.checksum := by
      rw [← RpcHead.read_append enough missing, whole, ← List.append_nil pkg.bytes, read_bytes]
    have magic : ¬ (RpcHead.read .little part).magic ≠ rpcPkgMagic := by
      rw [read]
      exact not_not_intro rfl
    have waits : part.length < (RpcHead.read .little part).size32.toNat := by
      rw [read, size32_eq small]
      exact less
    rw [rpcDecode_eq enough, if_neg magic, if_pos waits]
  · exact rpcDecode_short (not_le.mp enough)

end RpcPkg

/-! ## Changed bits -/

/-- One bit is flipped. -/
def flipBit (data : List Byte) (i : ℕ) : List Byte :=
  data.modify (i / 8) (· ^^^ BitVec.twoPow 8 (i % 8))

/-- A byte that is changed in a package the decoder accepts, outside of the two
sizes, is noticed. -/
theorem rpcDecode_set {host : HostOrder} {data : List Byte} (accepted : Accepted data) {i : ℕ}
    (counted : i < (RpcHead.read .little data).size32.toNat) (outside : i < 30 ∨ 36 ≤ i)
    {byte : Byte} (inside : i < data.length) (changed : byte ≠ data[i]) :
    (rpcDecode host (data.set i byte)).1 < 0 := by
  have enough : 36 ≤ (data.set i byte).length := by
    rw [List.length_set]
    exact accepted.enough
  have sizes : (RpcHead.read .little (data.set i byte)).size32 =
      (RpcHead.read .little data).size32 := by
    have ext : slice (data.set i byte) 34 2 = slice data 34 2 := slice_set (by omega)
    have body : slice (data.set i byte) 30 4 = slice data 30 4 := slice_set (by omega)
    unfold RpcHead.size32 RpcHead.size RpcHead.read
    simp only [ext, body]
  rw [rpcDecode_eq enough]
  by_cases magic : (RpcHead.read .little (data.set i byte)).magic = rpcPkgMagic
  swap
  · rw [if_pos magic]
    exact (by decide : (-1 : ℤ) < 0)
  have later : 4 ≤ i := by
    by_contra first
    rw [← accepted.magic] at magic
    have whole := accepted.enough
    exact slice_set_ne (Nat.zero_le i) (by omega) inside changed
      (HostOrder.load_inj .little (slice_length (by omega)) (slice_length (by omega)) magic)
  have fits : ¬ (data.set i byte).length <
      (RpcHead.read .little (data.set i byte)).size32.toNat := by
    rw [List.length_set, sizes]
    exact not_lt.mpr accepted.fits
  have crc32 : (RpcHead.read .little (data.set i byte)).crc32 ≠
      generateCrc32c (zeroCrc (data.set i byte))
        (RpcHead.read .little (data.set i byte)).size32.toNat := by
    have whole := accepted.enough
    rw [sizes]
    by_cases own : 14 ≤ i ∧ i < 18
    · -- the checksum itself: what it is compared with has not changed
      have same : zeroCrc (data.set i byte) = zeroCrc data := overwrite_set_inside own.1 own.2
      rw [same, ← accepted.crc32]
      intro read
      exact slice_set_ne own.1 own.2 inside changed
        (HostOrder.load_inj .little (slice_length (by omega)) (slice_length (by omega)) read)
    · have zero : zeroCrc (data.set i byte) = (zeroCrc data).set i byte := by
        apply overwrite_set_outside
        · change 14 + 4 ≤ data.length
          omega
        · change i < 14 ∨ 14 + 4 ≤ i
          omega
      have there : i < (zeroCrc data).length := by
        rw [zeroCrc_length whole]
        exact inside
      have kept : (zeroCrc data)[i] = data[i] := by
        have self : zeroCrc (data.set i data[i]) = (zeroCrc data).set i data[i] := by
          apply overwrite_set_outside
          · change 14 + 4 ≤ data.length
            omega
          · change i < 14 ∨ 14 + 4 ≤ i
            omega
        rw [List.set_getElem_self] at self
        have seen : (zeroCrc data)[i]? = ((zeroCrc data).set i data[i])[i]? := by
          rw [← self]
        rw [List.getElem?_set_self there, List.getElem?_eq_getElem there] at seen
        exact Option.some.inj seen
      have field : (RpcHead.read .little (data.set i byte)).crc32 =
          (RpcHead.read .little data).crc32 := by
        have read : slice (data.set i byte) 14 4 = slice data 14 4 := slice_set (by omega)
        unfold RpcHead.read
        simp only [read]
      rw [zero, field, accepted.crc32]
      exact (generateCrc32c_set_ne counted there (kept ▸ changed)).symm
  rw [if_neg (not_not_intro magic), if_neg fits, if_pos crc32]
  exact (by decide : (-3 : ℤ) < 0)

theorem flipped_ne {byte : Byte} {j : ℕ} (inside : j < 8) : byte ^^^ BitVec.twoPow 8 j ≠ byte := by
  intro same
  have bit := congrArg (BitVec.getLsbD · j) same
  simp [inside] at bit

/-- Decoding undoes packing, whatever follows the package; it waits for a package
of which a part is missing, and refuses one with a flipped bit outside of the two
sizes. -/
theorem rpc_round_trip (host : HostOrder) (fill : ℕ → Byte) (sendBuf : List Byte) (pkg : RpcPkg)
    (small : pkg.bodySize.toNat ≤ rpcPkgMaxBodySize) :
    ∃ buf, rpcPack host fill sendBuf pkg = some (pkg.size, buf) ∧
      (∀ rest, ∃ data, rpcDecode host (buf.take pkg.size ++ rest) = (↑pkg.size, data) ∧
        (onRecvPkg host data).head = pkg.header pkg.checksum ∧
        slice data (onRecvPkg host data).ext pkg.extSize.toNat = pkg.ext ∧
        slice data (onRecvPkg host data).body pkg.bodySize.toNat = pkg.body) ∧
      (∀ part, part <+: buf.take pkg.size → part ≠ buf.take pkg.size →
        rpcDecode host part = (0, part)) ∧
      ∀ i < 8 * pkg.size, i < 8 * 30 ∨ 8 * 36 ≤ i → ∀ rest,
        (rpcDecode host (flipBit (buf.take pkg.size) i ++ rest)).1 < 0 := by
  obtain ⟨after, packed⟩ := RpcPkg.rpcPack_eq host fill sendBuf small
  have taken : (pkg.bytes ++ after).take pkg.size = pkg.bytes := by
    rw [← pkg.bytes_length, List.take_left]
  refine ⟨pkg.bytes ++ after, packed, ?_⟩
  rw [taken]
  refine ⟨?_, ?_, ?_⟩
  · intro rest
    exact ⟨pkg.decoded host ++ rest, RpcPkg.rpcDecode_bytes host small rest,
      pkg.onRecvPkg_decoded rest⟩
  · intro part start strict
    exact RpcPkg.rpcDecode_prefix small start strict
  · intro i counted outside rest
    have accepted := RpcPkg.accepted small rest
    have byte : i / 8 < pkg.bytes.length := by
      rw [pkg.bytes_length]
      omega
    have inside : i / 8 < (pkg.bytes ++ rest).length := by
      rw [List.length_append]
      omega
    have flipped : flipBit pkg.bytes i ++ rest = (pkg.bytes ++ rest).set (i / 8)
        ((pkg.bytes ++ rest)[i / 8] ^^^ BitVec.twoPow 8 (i % 8)) := by
      rw [List.set_append_left _ _ byte, List.getElem_append_left byte]
      unfold flipBit
      rw [List.modify_eq_set_getElem?, List.getElem?_eq_getElem byte]
      rfl
    rw [flipped]
    apply rpcDecode_set accepted _ (by omega) inside (flipped_ne (Nat.mod_lt i (by decide)))
    rw [RpcPkg.read_bytes, RpcPkg.size32_eq small]
    omega

/-- A package with an extension and a body. -/
def smallPkg : RpcPkg where
  magic := 0
  command := 7
  pkgType := 1
  result := 0
  crc32 := 0
  sequence := 3
  reqId := 99
  bodySize := 3
  extSize := 2
  ext := [1, 2]
  body := [3, 4, 5]
  ext_length := rfl
  body_length := rfl

/-- It is packed into 41 bytes, and decoded from them with one more behind. -/
theorem rpc_round_trip_small : ∃ buf, rpcPack .big (fun _ => 0) [] smallPkg = some (41, buf) ∧
    (rpcDecode .big (buf.take 41 ++ [6])).1 = 41 := by
  obtain ⟨buf, packed, decodes, _, _⟩ :=
    rpc_round_trip .big (fun _ => 0) [] smallPkg (by decide)
  obtain ⟨data, decoded, _⟩ := decodes [6]
  exact ⟨buf, packed, congrArg Prod.fst decoded⟩

end ViabtcServer.Network
