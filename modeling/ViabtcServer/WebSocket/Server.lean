import ViabtcServer.WebSocket.Protocol
import ViabtcServer.Wire.Cast

/-!
# The WebSocket server

`decode_pkg`, `send_reply` and `on_recv_pkg` of `ut_ws_svr.c`. The bytes `decode_pkg`
is given are all there is: an access outside of them is `none`.
-/

namespace ViabtcServer.WebSocket

open Wire

/-- `ws_frame`; `payload` is an offset in the bytes given to `decode_pkg`. -/
structure WsFrame where
  fin : Byte
  opcode : Byte
  payloadLen : ℕ
  payload : ℕ
  deriving DecidableEq

/-- `memset` of a `ws_frame` to 0. -/
def WsFrame.zero : WsFrame := ⟨0, 0, 0, 0⟩

/-- `is_good_opcode`. -/
def isGoodOpcode (opcode : Byte) : Bool :=
  [0x0, 0x1, 0x2, 0x8, 0x9, 0xa].contains opcode

/-! ## Decoding -/

/-- What `decode_pkg` leaves: what it returns, the frame, and the bytes. -/
structure Decoded where
  ret : ℤ
  frame : WsFrame
  data : List Byte
  deriving DecidableEq

/-- Read `k` bytes from `off` on. -/
def readBytes (data : List Byte) (off k : ℕ) : Option (List Byte) :=
  if off + k ≤ data.length then some (slice data off k) else none

/-- The size of the first part of a frame and the length of its payload, or nothing
when the bytes of the length are not there yet. -/
def decodeLength (host : HostOrder) (data : List Byte) (len : ℕ) : Option (Option (ℕ × ℕ)) :=
  if len < 126 then some (some (2, len))
  else if len = 126 then
    if data.length < 2 + 2 then some none
    else
      (readBytes data 2 2).map fun bytes =>
        some (2 + 2, (host.be (host.load bytes : Word 2)).toNat)
  else
    if data.length < 2 + 8 then some none
    else
      (readBytes data 2 8).map fun bytes =>
        some (2 + 8, (host.be (host.load bytes : Word 8)).toNat)

/-- The loop of `decode_pkg` that removes the mask in place, with `left` bytes to do
and at `i`. -/
def unmask (masks : List Byte) (p : ℕ) : ℕ → ℕ → List Byte → Option (List Byte)
  | 0, _, data => some data
  | left + 1, i, data =>
      match data[p + i]?, masks[i % 4]? with
      | some byte, some mask => unmask masks p left (i + 1) (data.set (p + i) (byte ^^^ mask))
      | _, _ => none

/-- The second half of `decode_pkg`: the mask and the payload, behind the `first`
bytes of the frame. -/
def decodePayload (data : List Byte) (frame : WsFrame) (first payloadLen : ℕ) : Option Decoded :=
  match readBytes data first 4 with
  | none => none
  | some masks =>
      let payload := first + 4
      let pkgSize := (payload + payloadLen) % 2 ^ 64
      let frame := { frame with payloadLen := payloadLen, payload := payload }
      if data.length < pkgSize then some ⟨0, frame, data⟩
      else
        (unmask masks payload payloadLen 0 data).map fun data =>
          ⟨intOfSize pkgSize, frame, data⟩

/-- `decode_pkg` for the bytes `data`, of which there are `max`. -/
def decodePkg (host : HostOrder) (upgrade : Bool) (frame : WsFrame) (data : List Byte) :
    Option Decoded :=
  if !upgrade then some ⟨intOfSize data.length, frame, data⟩
  else if data.length < 2 then some ⟨0, frame, data⟩
  else
    match data[0]?, data[1]? with
    | some first, some second =>
        let frame := { WsFrame.zero with fin := first &&& 0x80, opcode := first &&& 0x0f }
        if !isGoodOpcode frame.opcode then some ⟨-1, frame, data⟩
        else if second &&& 0x80 = 0 then some ⟨-1, frame, data⟩
        else
          match decodeLength host data (second &&& 0x7f).toNat with
          | none => none
          | some none => some ⟨0, frame, data⟩
          | some (some (first, payloadLen)) => decodePayload data frame first payloadLen
    | _, _ => none

/-! ## Replies -/

/-- The frame `send_reply` hands to `nw_ses_send`; without a payload the length is 0. -/
def sendReply (host : HostOrder) (opcode : Byte) (payload : Option (List Byte)) : List Byte :=
  let payloadLen := (payload.getD []).length
  let first : Byte := 0 ||| (1 <<< 7) ||| opcode
  if payloadLen < 126 then first :: (0 ||| BitVec.ofNat 8 payloadLen) :: payload.getD []
  else if payloadLen ≤ 0xffff then
    first :: (0 ||| 126) :: host.store (host.be (BitVec.ofNat (8 * 2) payloadLen : Word 2)) ++
      payload.getD []
  else
    first :: (0 ||| 127) :: host.store (host.be (BitVec.ofNat (8 * 8) payloadLen : Word 8)) ++
      payload.getD []

/-- What `send_pong_message` sends. -/
def sendPongMessage (host : HostOrder) : List Byte :=
  sendReply host 0xa none

/-! ## Sessions -/

/-- What a session does to the outside. -/
inductive WsCall
  /-- `on_message`. -/
  | message (data : List Byte)
  /-- `nw_ses_send` for a pong. -/
  | pong (data : List Byte)

/-- What a session is given: what `on_message` returns and whether it closes the
session, whether sending a pong closes it, both by the calls so far with the last;
and what the handshake makes of bytes that come before it is done. -/
structure WsType (σ : Type) where
  onMessage : List WsCall → ℤ × Bool
  pongCloses : List WsCall → Bool
  handshake : σ → List Byte → σ

/-- `clt_info`, and whether the session is open. -/
structure WsSes where
  opened : Bool
  upgrade : Bool
  frame : WsFrame
  message : Option (List Byte)
  calls : List WsCall

section Session

variable (host : HostOrder) (T : WsType WsSes)

def WsSes.call (ses : WsSes) (call : WsCall) : WsSes :=
  { ses with calls := ses.calls ++ [call] }

/-- The end of a message. -/
def finishMessage (ses : WsSes) (message : List Byte) : WsSes :=
  let ses := ses.call (.message message)
  let (ret, closes) := T.onMessage ses.calls
  if closes then { ses with opened := false }
  else if ret < 0 then { ses with opened := false }
  else { ses with message := none }

/-- `on_recv_pkg`. -/
def onRecvPkg (ses : WsSes) (data : List Byte) : WsSes :=
  if !ses.upgrade then T.handshake ses data
  else if ses.frame.opcode = 0x8 then { ses with opened := false }
  else if ses.frame.opcode = 0x9 then
    let ses := ses.call (.pong (sendPongMessage host))
    if T.pongCloses ses.calls then { ses with opened := false } else ses
  else if ses.frame.opcode = 0xa then ses
  else
    let message := ses.message.getD [] ++ slice data ses.frame.payload ses.frame.payloadLen
    let ses := { ses with message := some message }
    if ses.frame.fin ≠ 0 then finishMessage T ses message else ses

end Session

end ViabtcServer.WebSocket
