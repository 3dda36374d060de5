import ViabtcServer.Wire.Word

/-!
# Buffers

`nw_buf` of `nw_buf.c`: memory with a position to read from and one to write to,
and what is between them.
-/

namespace ViabtcServer.Network

open Wire

/-- `nw_buf`; `data` is its memory, as long as `size`. -/
structure NwBuf where
  data : List Byte
  rpos : ℕ
  wpos : ℕ

/-- `nw_buf_size`. -/
def nwBufSize (buf : NwBuf) : ℕ :=
  buf.wpos - buf.rpos

/-- `nw_buf_avail`. -/
def nwBufAvail (buf : NwBuf) : ℕ :=
  buf.data.length - buf.wpos

/-- The bytes written and not yet read. -/
def NwBuf.unread (buf : NwBuf) : List Byte :=
  slice buf.data buf.rpos (nwBufSize buf)

/-- `nw_buf_shift`. -/
def nwBufShift (buf : NwBuf) : NwBuf :=
  if buf.rpos = buf.wpos then { buf with rpos := 0, wpos := 0 }
  else if buf.rpos ≠ 0 then
    { data := overwrite buf.data 0 buf.unread, rpos := 0, wpos := buf.wpos - buf.rpos }
  else buf

section Buffers

variable {size : ℕ} {buf : NwBuf} {bytes : List Byte}

/-- The buffer with more bytes from the socket. -/
def NwBuf.filled (buf : NwBuf) (bytes : List Byte) : NwBuf :=
  { buf with
    data := overwrite buf.data buf.wpos bytes
    wpos := buf.wpos + bytes.length }

/-- The buffer with the bytes the decoder was given as it leaves them. -/
def NwBuf.decoded (buf : NwBuf) (bytes : List Byte) : NwBuf :=
  { buf with data := overwrite buf.data buf.rpos bytes }

/-- The buffer without the package at its front. -/
def NwBuf.advanced (buf : NwBuf) (n : ℕ) : NwBuf :=
  { buf with rpos := buf.rpos + n }

/-- The positions of a buffer are in order. -/
structure NwBuf.Ok (size : ℕ) (buf : NwBuf) : Prop where
  order : buf.rpos ≤ buf.wpos
  inside : buf.wpos ≤ size
  length : buf.data.length = size

theorem NwBuf.Ok.unread_length (ok : buf.Ok size) : buf.unread.length = buf.wpos - buf.rpos := by
  have order := ok.order
  have inside := ok.inside
  have length := ok.length
  apply slice_length
  unfold nwBufSize
  omega

/-- Bytes are read from the socket behind the others. -/
theorem NwBuf.Ok.fill (ok : buf.Ok size) (room : buf.wpos + bytes.length ≤ size) :
    (buf.filled bytes).Ok size ∧ (buf.filled bytes).unread = buf.unread ++ bytes := by
  have order := ok.order
  have length := ok.length
  have unread := ok.unread_length
  have inside : buf.wpos + bytes.length ≤ buf.data.length := by omega
  constructor
  · exact ⟨Nat.le_trans order (Nat.le_add_right _ _), room,
      (overwrite_length inside).trans ok.length⟩
  · have start : (buf.data.take buf.rpos).length = buf.rpos := by
      rw [List.length_take]
      omega
    have filled : buf.data.take buf.wpos = buf.data.take buf.rpos ++ buf.unread := by
      have sum : buf.rpos + (buf.wpos - buf.rpos) = buf.wpos := by omega
      unfold NwBuf.unread nwBufSize
      rw [take_append_slice, sum]
    have both : (buf.unread ++ bytes).length = buf.wpos + bytes.length - buf.rpos := by
      rw [List.length_append, unread]
      omega
    change slice (overwrite buf.data buf.wpos bytes) buf.rpos
      (buf.wpos + bytes.length - buf.rpos) = _
    unfold overwrite
    rw [filled, List.append_assoc, List.append_assoc, slice_append_tail (Nat.le_of_eq start), start,
      Nat.sub_self, ← List.append_assoc, slice_append_head both]

/-- The decoder may change the bytes it is given. -/
theorem NwBuf.Ok.decode (ok : buf.Ok size) (length : bytes.length = buf.unread.length) :
    (buf.decoded bytes).Ok size ∧ (buf.decoded bytes).unread = bytes := by
  have order := ok.order
  have inside := ok.inside
  rw [ok.unread_length] at length
  have room : buf.rpos + bytes.length ≤ buf.data.length := by
    rw [ok.length]
    omega
  constructor
  · exact ⟨order, inside, (overwrite_length room).trans ok.length⟩
  · unfold NwBuf.unread nwBufSize NwBuf.decoded
    rw [← length]
    exact slice_overwrite room

/-- A package is taken. -/
theorem NwBuf.Ok.advance (ok : buf.Ok size) {n : ℕ} (there : n ≤ buf.unread.length) :
    (buf.advanced n).Ok size ∧ (buf.advanced n).unread = buf.unread.drop n := by
  have order := ok.order
  rw [ok.unread_length] at there
  constructor
  · refine ⟨?_, ok.inside, ok.length⟩
    change buf.rpos + n ≤ buf.wpos
    omega
  · unfold NwBuf.unread nwBufSize NwBuf.advanced
    rw [slice_drop, Nat.sub_sub]

theorem NwBuf.Ok.shift (ok : buf.Ok size) : (nwBufShift buf).Ok size ∧
    (nwBufShift buf).unread = buf.unread ∧ (nwBufShift buf).wpos = buf.unread.length := by
  have order := ok.order
  have inside := ok.inside
  have unread := ok.unread_length
  unfold nwBufShift
  by_cases empty : buf.rpos = buf.wpos
  · rw [if_pos empty]
    have none_ : buf.unread = [] := by
      apply List.eq_nil_of_length_eq_zero
      omega
    refine ⟨⟨le_rfl, Nat.zero_le _, ok.length⟩, ?_, ?_⟩
    · rw [none_]
      rfl
    · rw [none_]
      rfl
  · rw [if_neg empty]
    by_cases shifted : buf.rpos = 0
    · rw [if_neg (not_not_intro shifted)]
      refine ⟨ok, rfl, ?_⟩
      omega
    · rw [if_pos shifted]
      have room : 0 + buf.unread.length ≤ buf.data.length := by
        rw [ok.length]
        omega
      refine ⟨⟨Nat.zero_le _, ?_, ?_⟩, ?_, unread.symm⟩
      · simp only
        omega
      · exact (overwrite_length room).trans ok.length
      · change slice (overwrite buf.data 0 buf.unread) 0 (buf.wpos - buf.rpos - 0) = buf.unread
        rw [Nat.sub_zero, ← unread]
        exact slice_overwrite room

end Buffers

end ViabtcServer.Network
