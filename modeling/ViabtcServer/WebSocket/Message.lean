import ViabtcServer.WebSocket.Bounds

/-!
# Messages over WebSocket frames

A frame of a client is decoded to what it was made of, if an `int` can count its
bytes. The parts of a message come together however it is split, and a reply is a
frame that any decoder reads back.
-/

namespace ViabtcServer.WebSocket

open Wire

/-! ## Frames of a client -/

section Decode

variable {host : HostOrder} {frame : Frame} {mask : Mask} {before : WsFrame} {data : List Byte}

/-- `decode_pkg` takes a frame from the front of the bytes, with what was sent. -/
def Decodes (host : HostOrder) (before : WsFrame) (frame : Frame) (data : List Byte) : Prop :=
  ∃ decoded, decodePkg host true before (frame.encode ++ data) = some decoded ∧
    decoded.ret = frame.encode.length ∧
    (decoded.frame.fin ≠ 0 ↔ frame.fin = true) ∧
    decoded.frame.opcode = frame.opcode.setWidth 8 ∧
    slice decoded.data decoded.frame.payload decoded.frame.payloadLen = frame.payload

/-- What `decode_pkg` makes of a frame, but for what it returns. -/
structure Decoded.Of (frame : Frame) (decoded : Decoded) : Prop where
  ret : decoded.ret = intOfSize frame.encode.length
  fin : decoded.frame.fin ≠ 0 ↔ frame.fin = true
  opcode : decoded.frame.opcode = frame.opcode.setWidth 8
  payload : slice decoded.data decoded.frame.payload decoded.frame.payloadLen = frame.payload

theorem headLength_lengthForm {n : ℕ} (fits : n < 2 ^ 63) (data : List Byte) :
    headLength (lengthForm n).1 ((lengthForm n).2 ++ data) =
      some (2 + (lengthForm n).2.length, n) := by
  unfold headLength
  rcases lengthForm_cases fits with ⟨short, form⟩ | ⟨k, len, form, large, kind, bound⟩
  · rw [form]
    exact if_pos short
  · have length : (bytesOf k n).reverse.length = k := by
      rw [List.length_reverse, bytesOf_length]
    have value : valueOf (((bytesOf k n).reverse ++ data).take k).reverse = n := by
      rw [List.take_left' length, List.reverse_reverse, valueOf_bytesOf, Nat.mod_eq_of_lt bound]
    rw [form]
    simp only
    rw [if_neg large, kind, value, length]
    apply if_pos
    rw [List.length_append, length]
    exact Nat.le_add_right _ _

theorem frameHead_encode (masks : frame.mask = some mask)
    (good : isGoodOpcode (frame.opcode.setWidth 8) = true) (data : List Byte) :
    frameHead (frame.encode ++ data) =
      some (2 + (lengthForm frame.payload.length).2.length, frame.payload.length) := by
  obtain ⟨_, _, _, opcode⟩ := firstByte_bits frame.fin frame.opcode
  obtain ⟨isMasked, len⟩ := secondByte_bits frame.mask.isSome (lengthForm_lt frame.payload.length)
  have accepted : isGoodOpcode (firstByte frame.fin frame.opcode &&& 0x0f) ∧
      secondByte frame.mask.isSome (lengthForm frame.payload.length).1 &&& 0x80 ≠ 0 := by
    rw [opcode]
    refine ⟨good, ?_⟩
    intro plain
    rw [plain, masks] at isMasked
    simp at isMasked
  unfold Frame.encode
  rw [List.cons_append, List.cons_append, frameHead_cons, if_pos accepted, len, List.append_assoc,
    List.append_assoc]
  exact headLength_lengthForm frame.bound _

theorem lengthForm_length (n : ℕ) : (lengthForm n).2.length ≤ 8 := by
  unfold lengthForm
  split
  · exact Nat.zero_le _
  · split <;> simp

/-- The bytes of a masked frame, with the places of its parts. -/
theorem encode_masked (masks : frame.mask = some mask) :
    ∃ first, frame.encode = first ++ (mask.bytes ++ mask.apply 0 frame.payload) ∧
      first.length = 2 + (lengthForm frame.payload.length).2.length := by
  refine ⟨firstByte frame.fin frame.opcode ::
    secondByte frame.mask.isSome (lengthForm frame.payload.length).1 ::
      (lengthForm frame.payload.length).2, ?_, ?_⟩
  · unfold Frame.encode
    rw [masks, List.append_assoc]
    rfl
  · simp only [List.length_cons]
    omega

theorem encode_length (masks : frame.mask = some mask) : frame.encode.length =
    2 + (lengthForm frame.payload.length).2.length + 4 + frame.payload.length := by
  obtain ⟨first, eq, length⟩ := encode_masked masks
  rw [eq, List.length_append, List.length_append, length, mask.length, mask.apply_length]
  omega

/-- `decode_pkg` on a frame of a client, followed by anything. -/
theorem decodePkg_encode (masks : frame.mask = some mask)
    (good : isGoodOpcode (frame.opcode.setWidth 8) = true)
    (bounded : (frame.encode ++ data).length < 2 ^ 64) :
    ∃ decoded, decodePkg host true before (frame.encode ++ data) = some decoded ∧
      decoded.Of frame := by
  have head := frameHead_encode masks good data
  obtain ⟨_, small, fits, _⟩ := frameHead_bounds head
  have length := encode_length masks
  have whole : (frame.encode ++ data).length = frame.encode.length + data.length :=
    List.length_append
  obtain ⟨first, eq, firstLength⟩ := encode_masked masks
  have decode := decodePkg_some host head before
  rcases decodePayload_cases { WsFrame.zero with
      fin := (frame.encode ++ data).getD 0 0 &&& 0x80
      opcode := (frame.encode ++ data).getD 0 0 &&& 0x0f } bounded small fits with
    ⟨short, _⟩ | ⟨_, _, short, _⟩ | ⟨overflow, _⟩ | ⟨mask', bytes, there, payload⟩
  · omega
  · omega
  · omega
  obtain ⟨_, isFin, _, opcode⟩ := firstByte_bits frame.fin frame.opcode
  have front : (frame.encode ++ data).getD 0 0 = firstByte frame.fin frame.opcode := rfl
  refine ⟨_, decode.trans payload, ?_, ?_, ?_, ?_⟩
  · simp only
    rw [length]
  · simp only [front]
    rw [← bne_iff_ne, isFin]
  · simp only [front]
    exact opcode
  · -- the mask that was read is the one that was sent
    have behind (off len : ℕ) : slice (frame.encode ++ data) (first.length + off) len =
        slice (mask.bytes ++ (mask.apply 0 frame.payload ++ data)) off len := by
      rw [eq, List.append_assoc, List.append_assoc,
        slice_append_tail (Nat.le_add_right _ _), Nat.add_sub_cancel_left]
    have sameMask : mask' = mask := by
      have bytes' := behind 0 4
      rw [Nat.add_zero, firstLength, slice_append_head mask.length, ← bytes] at bytes'
      rcases mask with ⟨bytes, length⟩
      rcases mask' with ⟨bytes', length'⟩
      simpa using bytes'
    have sent : slice (frame.encode ++ data)
        (2 + (lengthForm frame.payload.length).2.length + 4) frame.payload.length =
          mask.apply 0 frame.payload := by
      have payload' := behind 4 frame.payload.length
      rw [firstLength] at payload'
      rw [payload', slice_append_tail (Nat.le_of_eq mask.length), mask.length, Nat.sub_self,
        slice_append_head (mask.apply_length 0 _)]
    have unmasked : mask'.apply 0 (slice (frame.encode ++ data)
        (2 + (lengthForm frame.payload.length).2.length + 4) frame.payload.length) =
          frame.payload := by
      rw [sent, sameMask, mask.apply_apply]
    simp only
    rw [unmasked]
    exact slice_overwrite there

/-- A frame is decoded exactly when an `int` can count its bytes. -/
theorem decodes_iff (masks : frame.mask = some mask)
    (good : isGoodOpcode (frame.opcode.setWidth 8) = true)
    (bounded : (frame.encode ++ data).length < 2 ^ 64) :
    Decodes host before frame data ↔ frame.encode.length < 2 ^ 31 := by
  obtain ⟨decoded, eq, of_⟩ := @decodePkg_encode host _ _ before _ masks good bounded
  constructor
  · rintro ⟨decoded', eq', ret, _⟩
    rw [eq] at eq'
    cases eq'
    have range := intOfSize_eq frame.encode.length
    rw [← of_.ret, ret] at range
    split at range <;> omega
  · intro small
    refine ⟨decoded, eq, ?_, of_.fin, of_.opcode, of_.payload⟩
    rw [of_.ret, intOfSize_of_lt small]

end Decode

/-! ## Messages -/

/-- A frame with a part of a message. -/
def Frame.IsData (frame : Frame) : Prop :=
  frame.opcode = 0x0 ∨ frame.opcode = 0x1 ∨ frame.opcode = 0x2

/-- A ping or a pong. -/
def Frame.IsControl (frame : Frame) : Prop :=
  frame.opcode = 0x9 ∨ frame.opcode = 0xa

/-- Masked frames that carry a message: parts of it, the last marked as such, and
pings and pongs between them. -/
inductive Splits : List Frame → List Byte → Prop
  | last (frame : Frame) (masks : frame.mask.isSome) (isData : frame.IsData)
      (fin : frame.fin = true) : Splits [frame] frame.payload
  | part (frame : Frame) (masks : frame.mask.isSome) (isData : frame.IsData)
      (more : frame.fin = false) {frames : List Frame} {payload : List Byte}
      (rest : Splits frames payload) : Splits (frame :: frames) (frame.payload ++ payload)
  | control (frame : Frame) (masks : frame.mask.isSome) (isControl : frame.IsControl)
      {frames : List Frame} {payload : List Byte} (rest : Splits frames payload) :
      Splits (frame :: frames) payload

/-- The messages given to `on_message`. -/
def WsSes.messages (ses : WsSes) : List (List Byte) :=
  ses.calls.filterMap fun
    | .message data => some data
    | .pong _ => none

section Messages

variable (host : HostOrder) (T : WsType WsSes)

/-- `on_recv_pkg` for a frame as `decode_pkg` left it, while the session is open. -/
def deliver (ses : WsSes) (frame : Frame) : WsSes :=
  if !ses.opened then ses
  else
    match decodePkg host ses.upgrade ses.frame frame.encode with
    | none => ses
    | some decoded =>
        let ses := { ses with frame := decoded.frame }
        -- the session is closed on bytes that are no frame
        if decoded.ret < 0 then { ses with opened := false }
        else onRecvPkg host T ses decoded.data

/-- The bytes of a frame can be counted by an `int`. -/
def Frame.Counted (frame : Frame) : Prop :=
  frame.encode.length < 2 ^ 31

instance (frame : Frame) : Decidable frame.Counted :=
  inferInstanceAs (Decidable (frame.encode.length < 2 ^ 31))

/-- A frame fits a buffer, of which the size is an `uint32_t`. -/
def Frame.Buffered (frame : Frame) : Prop :=
  frame.encode.length < 2 ^ 32

/-- `on_message` is called once, with the whole message, and the next message starts
empty; unless the session was closed before because a pong could not be sent. -/
def Reassembles (ses : WsSes) (frames : List Frame) (payload : List Byte) : Prop :=
  let after := frames.foldl (deliver host T) ses
  (after.messages = ses.messages ++ [payload] ∧ (after.opened = true → after.message = none)) ∨
    (after.messages = ses.messages ∧ after.opened = false ∧ T.pongCloses after.calls = true)

variable {host T}
variable {ses : WsSes} {frame : Frame}

/-- A session that was upgraded and is open. -/
structure WsSes.Live (ses : WsSes) : Prop where
  opened : ses.opened = true
  upgrade : ses.upgrade = true

/-- The size of a frame that fits the memory. -/
def Frame.InMemory (frame : Frame) : Prop :=
  frame.encode.length < 2 ^ 64

theorem Frame.inMemory_of_masked (masks : frame.mask.isSome) : frame.InMemory := by
  obtain ⟨mask, some_⟩ := Option.isSome_iff_exists.mp masks
  have length := encode_length some_
  have form := lengthForm_length frame.payload.length
  have bound := frame.bound
  unfold Frame.InMemory
  omega

theorem deliver_decoded (live : ses.Live) (masks : frame.mask.isSome)
    (good : isGoodOpcode (frame.opcode.setWidth 8) = true) :
    ∃ decoded : Decoded, decoded.Of frame ∧
      deliver host T ses frame =
        if decoded.ret < 0 then { ses with frame := decoded.frame, opened := false }
        else onRecvPkg host T { ses with frame := decoded.frame } decoded.data := by
  obtain ⟨mask, some_⟩ := Option.isSome_iff_exists.mp masks
  have bounded : (frame.encode ++ []).length < 2 ^ 64 := by
    rw [List.append_nil]
    exact Frame.inMemory_of_masked masks
  obtain ⟨decoded, eq, of_⟩ := @decodePkg_encode host _ _ ses.frame _ some_ good bounded
  rw [List.append_nil] at eq
  refine ⟨decoded, of_, ?_⟩
  unfold deliver
  rw [live.opened, live.upgrade, eq]
  rfl

/-- `on_recv_pkg` is given the frame that was sent. -/
theorem deliver_eq (live : ses.Live) (counted : frame.Counted) (masks : frame.mask.isSome)
    (good : isGoodOpcode (frame.opcode.setWidth 8) = true) :
    ∃ decoded : Decoded, decoded.Of frame ∧
      deliver host T ses frame =
        onRecvPkg host T { ses with frame := decoded.frame } decoded.data := by
  obtain ⟨decoded, of_, eq⟩ := @deliver_decoded host T _ _ live masks good
  have positive : ¬decoded.ret < 0 := by
    rw [of_.ret, intOfSize_of_lt counted]
    omega
  rw [if_neg positive] at eq
  exact ⟨decoded, of_, eq⟩

/-- A frame that an `int` cannot count closes the session. -/
theorem deliver_uncounted (live : ses.Live) (uncounted : ¬frame.Counted)
    (buffered : frame.Buffered) (masks : frame.mask.isSome)
    (good : isGoodOpcode (frame.opcode.setWidth 8) = true) :
    (deliver host T ses frame).opened = false ∧
      (deliver host T ses frame).messages = ses.messages := by
  obtain ⟨decoded, of_, eq⟩ := @deliver_decoded host T _ _ live masks good
  have negative : decoded.ret < 0 := by
    unfold Frame.Counted at uncounted
    unfold Frame.Buffered at buffered
    have range := intOfSize_eq frame.encode.length
    rw [of_.ret]
    split at range <;> omega
  rw [eq, if_pos negative]
  exact ⟨rfl, rfl⟩

theorem Frame.IsData.good (isData : frame.IsData) :
    isGoodOpcode (frame.opcode.setWidth 8) = true := by
  rcases isData with opcode | opcode | opcode <;> rw [opcode] <;> decide

theorem Frame.IsControl.good (isControl : frame.IsControl) :
    isGoodOpcode (frame.opcode.setWidth 8) = true := by
  rcases isControl with opcode | opcode <;> rw [opcode] <;> decide

/-- A part of a message is added to what came before. -/
theorem deliver_data (live : ses.Live) (counted : frame.Counted) (masks : frame.mask.isSome)
    (isData : frame.IsData) :
    ∃ decoded : Decoded, deliver host T ses frame =
      let message := ses.message.getD [] ++ frame.payload
      let ses := { ses with frame := decoded.frame, message := some message }
      if frame.fin then finishMessage T ses message else ses := by
  obtain ⟨decoded, of_, eq⟩ := @deliver_eq host T _ _ live counted masks isData.good
  have opcode := of_.opcode
  have notControl : decoded.frame.opcode ≠ 0x8 ∧ decoded.frame.opcode ≠ 0x9 ∧
      decoded.frame.opcode ≠ 0xa := by
    rw [opcode]
    rcases isData with opcode | opcode | opcode <;> rw [opcode] <;> decide
  refine ⟨decoded, eq.trans ?_⟩
  unfold onRecvPkg
  simp only
  rw [live.upgrade, if_neg (by decide), if_neg notControl.1, if_neg notControl.2.1,
    if_neg notControl.2.2, of_.payload]
  by_cases fin : frame.fin = true
  · rw [if_pos (of_.fin.mpr fin), if_pos fin]
  · rw [if_neg fun set => fin (of_.fin.mp set), if_neg fin]

/-- A ping or a pong leaves the message alone. -/
theorem deliver_control (live : ses.Live) (counted : frame.Counted)
    (masks : frame.mask.isSome) (isControl : frame.IsControl) :
    ((deliver host T ses frame).Live ∨ (deliver host T ses frame).opened = false ∧
        T.pongCloses (deliver host T ses frame).calls = true) ∧
      (deliver host T ses frame).messages = ses.messages ∧
      (deliver host T ses frame).message = ses.message := by
  obtain ⟨decoded, of_, eq⟩ := @deliver_eq host T _ _ live counted masks isControl.good
  have opcode := of_.opcode
  rw [eq]
  unfold onRecvPkg
  simp only
  rcases isControl with ping | pong
  · have ping' : decoded.frame.opcode = 0x9 := by
      rw [opcode, ping]
      decide
    rw [live.upgrade, ping', if_neg (by decide), if_neg (by decide), if_pos rfl]
    have messages : ({ ses with frame := decoded.frame } : WsSes).messages = ses.messages := rfl
    split
    · rename_i closes
      refine ⟨Or.inr ⟨rfl, closes⟩, ?_, rfl⟩
      unfold WsSes.messages WsSes.call
      rw [List.filterMap_append]
      exact List.append_nil _
    · refine ⟨Or.inl ⟨live.opened, rfl⟩, ?_, rfl⟩
      unfold WsSes.messages WsSes.call
      rw [List.filterMap_append]
      exact List.append_nil _
  · have pong' : decoded.frame.opcode = 0xa := by
      rw [opcode, pong]
      decide
    rw [live.upgrade, pong', if_neg (by decide), if_neg (by decide), if_neg (by decide), if_pos rfl]
    exact ⟨Or.inl ⟨live.opened, rfl⟩, rfl, rfl⟩

theorem finishMessage_spec (message : List Byte) :
    (finishMessage T ses message).messages = ses.messages ++ [message] ∧
      ((finishMessage T ses message).opened = true →
        (finishMessage T ses message).message = none) := by
  have messages : (ses.call (.message message)).messages = ses.messages ++ [message] := by
    unfold WsSes.messages WsSes.call
    rw [List.filterMap_append]
    rfl
  unfold finishMessage
  simp only
  split
  · exact ⟨messages, fun opened => absurd opened Bool.false_ne_true⟩
  split
  · exact ⟨messages, fun opened => absurd opened Bool.false_ne_true⟩
  · exact ⟨messages, fun _ => rfl⟩

/-- A closed session is left alone. -/
theorem deliver_closed (closed : ses.opened = false) (frames : List Frame) :
    frames.foldl (deliver host T) ses = ses := by
  induction frames with
  | nil => rfl
  | cons frame frames ih =>
      have same : deliver host T ses frame = ses := by
        unfold deliver
        rw [closed]
        rfl
      rw [List.foldl_cons, same, ih]

/-- The parts of a message are added to what was there of it. -/
theorem deliver_splits {frames : List Frame} {payload : List Byte} (splits : Splits frames payload)
    (live : ses.Live) (counted : ∀ frame ∈ frames, frame.Counted) :
    Reassembles host T ses frames (ses.message.getD [] ++ payload) := by
  induction splits generalizing ses with
  | last frame masks isData fin =>
      obtain ⟨decoded, eq⟩ := @deliver_data host T _ _ live (counted _ List.mem_cons_self) masks
        isData
      simp only [if_pos fin] at eq
      obtain ⟨messages, empty⟩ := @finishMessage_spec T
        { ses with
          frame := decoded.frame
          message := some (ses.message.getD [] ++ frame.payload) }
        (ses.message.getD [] ++ frame.payload)
      refine Or.inl ?_
      rw [List.foldl_cons, List.foldl_nil, eq]
      exact ⟨messages, empty⟩
  | part frame masks isData more rest ih =>
      obtain ⟨decoded, eq⟩ := @deliver_data host T _ _ live (counted _ List.mem_cons_self) masks
        isData
      simp only [more, Bool.false_eq_true, if_false] at eq
      have live' : WsSes.Live { ses with
          frame := decoded.frame
          message := some (ses.message.getD [] ++ frame.payload) } :=
        ⟨live.opened, live.upgrade⟩
      have rest' := ih live' fun _ mem => counted _ (List.mem_cons_of_mem _ mem)
      unfold Reassembles at rest' ⊢
      simp only at rest' ⊢
      rw [List.foldl_cons, eq, ← List.append_assoc]
      exact rest'
  | control frame masks isControl rest ih =>
      obtain ⟨still, messages, message⟩ := @deliver_control host T _ _ live
        (counted _ List.mem_cons_self) masks isControl
      unfold Reassembles
      simp only
      rw [List.foldl_cons]
      rcases still with live' | ⟨closed, closes⟩
      · have rest' := ih live' fun _ mem => counted _ (List.mem_cons_of_mem _ mem)
        rw [message] at rest'
        unfold Reassembles at rest'
        simp only [messages] at rest'
        exact rest'
      · rw [deliver_closed closed]
        exact Or.inr ⟨messages, closed, closes⟩

/-- No message comes of frames of which an `int` cannot count one. -/
theorem deliver_splits_uncounted {frames : List Frame} {payload : List Byte}
    (splits : Splits frames payload) (live : ses.Live)
    (sends : ∀ calls, T.pongCloses calls = false) (buffered : ∀ frame ∈ frames, frame.Buffered)
    (uncounted : ¬∀ frame ∈ frames, frame.Counted) :
    (frames.foldl (deliver host T) ses).messages = ses.messages := by
  have closes {ses : WsSes} {frame : Frame} (frames : List Frame) (live : ses.Live)
      (uncounted : ¬frame.Counted) (buffered : frame.Buffered) (masks : frame.mask.isSome)
      (good : isGoodOpcode (frame.opcode.setWidth 8) = true) :
      ((frame :: frames).foldl (deliver host T) ses).messages = ses.messages := by
    obtain ⟨closed, messages⟩ := @deliver_uncounted host T _ _ live uncounted buffered masks good
    rw [List.foldl_cons, deliver_closed closed, messages]
  induction splits generalizing ses with
  | last frame masks isData fin =>
      apply closes [] live _ (buffered _ List.mem_cons_self) masks isData.good
      intro counted
      apply uncounted
      simpa using counted
  | part frame masks isData more rest ih =>
      by_cases counted : frame.Counted
      · obtain ⟨decoded, eq⟩ := @deliver_data host T _ _ live counted masks isData
        simp only [more, Bool.false_eq_true, if_false] at eq
        have live' : WsSes.Live { ses with
            frame := decoded.frame
            message := some (ses.message.getD [] ++ frame.payload) } :=
          ⟨live.opened, live.upgrade⟩
        rw [List.foldl_cons, eq]
        apply ih live' fun _ mem => buffered _ (List.mem_cons_of_mem _ mem)
        intro others
        exact uncounted (List.forall_mem_cons.mpr ⟨counted, others⟩)
      · exact closes _ live counted (buffered _ List.mem_cons_self) masks isData.good
  | control frame masks isControl rest ih =>
      by_cases counted : frame.Counted
      · obtain ⟨still, messages, -⟩ := @deliver_control host T _ _ live counted masks isControl
        rcases still with live' | ⟨-, closed⟩
        · rw [List.foldl_cons, ← messages]
          apply ih live' fun _ mem => buffered _ (List.mem_cons_of_mem _ mem)
          intro others
          exact uncounted (List.forall_mem_cons.mpr ⟨counted, others⟩)
        · rw [sends] at closed
          exact absurd closed Bool.false_ne_true
      · exact closes _ live counted (buffered _ List.mem_cons_self) masks isControl.good

/-- A message comes together exactly when an `int` counts the bytes of each of its
frames, as long as pongs are sent. -/
theorem reassembles_iff {frames : List Frame} {payload : List Byte}
    (splits : Splits frames payload) (live : ses.Live) (empty : ses.message = none)
    (sends : ∀ calls, T.pongCloses calls = false)
    (buffered : ∀ frame ∈ frames, frame.Buffered) :
    Reassembles host T ses frames payload ↔ ∀ frame ∈ frames, frame.Counted := by
  constructor
  · intro reassembles
    by_contra uncounted
    have messages := @deliver_splits_uncounted host T _ _ _ splits live sends buffered uncounted
    rcases reassembles with ⟨delivered, _⟩ | ⟨_, _, closed⟩
    · rw [messages] at delivered
      simp at delivered
    · rw [sends] at closed
      exact absurd closed Bool.false_ne_true
  · intro counted
    have whole : Reassembles host T ses frames (ses.message.getD [] ++ payload) :=
      deliver_splits splits live counted
    rwa [empty] at whole

end Messages

/-! ## Replies -/

/-- A reply is read back by a decoder that insists on the shortest length. -/
def Emits (host : HostOrder) (opcode : BitVec 4) (payload : List Byte) : Prop :=
  ∃ frame : Frame,
    readFrame (sendReply host (opcode.setWidth 8) (some payload)) = some (frame, []) ∧
    frame.fin = true ∧ frame.opcode = opcode ∧ frame.mask = none ∧ frame.payload = payload

theorem replyByte (opcode : BitVec 4) :
    (0 ||| (1 <<< 7) ||| opcode.setWidth 8 : Byte) = firstByte true opcode := by
  revert opcode
  decide

theorem replyLength {n : ℕ} (small : n < 128) :
    (0 ||| BitVec.ofNat 8 n : Byte) = secondByte false n := by
  have all : ∀ n : Fin 128, (0 ||| BitVec.ofNat 8 n : Byte) = secondByte false n := by
    decide +kernel
  exact all ⟨n, small⟩

/-- `send_reply` makes the frame of its opcode and payload. -/
theorem sendReply_eq (host : HostOrder) (opcode : BitVec 4) {payload : List Byte}
    (bound : payload.length < 2 ^ 63) : sendReply host (opcode.setWidth 8) (some payload) =
      Frame.encode ⟨true, opcode, none, payload, bound⟩ := by
  have be {k : ℕ} (n : ℕ) (fits : n < 256 ^ k) :
      host.store (host.be (BitVec.ofNat (8 * k) n : Word k)) = (bytesOf k n).reverse := by
    rw [host.store_be]
    change (bytesOf k (BitVec.ofNat (8 * k) n).toNat).reverse = _
    rw [BitVec.toNat_ofNat, Nat.mod_eq_of_lt (by rwa [← HostOrder.pow_bytes])]
  unfold sendReply Frame.encode lengthForm
  simp only [Option.getD_some, replyByte, Option.isSome_none, maskBytes, masked, List.append_nil]
  by_cases short : payload.length < 126
  · rw [if_pos short, if_pos short, replyLength (by omega)]
    rfl
  rw [if_neg short, if_neg short]
  by_cases medium : payload.length < 2 ^ 16
  · rw [if_pos (by omega), if_pos medium, be _ (by omega)]
    rfl
  · rw [if_neg (by omega), if_neg medium, be _ (by omega)]
    rfl

theorem sendReply_emits (host : HostOrder) (opcode : BitVec 4) {payload : List Byte}
    (bound : payload.length < 2 ^ 63) : Emits host opcode payload := by
  have read := readFrame_encode ⟨true, opcode, none, payload, bound⟩ []
  rw [List.append_nil, ← sendReply_eq host opcode bound] at read
  exact ⟨_, read, rfl, rfl, rfl, rfl⟩

end ViabtcServer.WebSocket
