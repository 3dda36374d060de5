import ViabtcServer.Network.Buffer

/-!
# Sessions

`on_can_read` of `nw_ses.c` for the three types of sockets. The callbacks and the
decoder of a session are parameters; what happens is kept in a trace.
-/

namespace ViabtcServer.Network

open Wire

/-! ## What happens in a session -/

/-- A call of `on_recv_pkg`: the memory from its pointer on, and the size it is
given. `given` is a ghost: what `decode_pkg` was called with before. -/
structure Delivery where
  given : List Byte
  data : List Byte
  size : ℕ

/-- The bytes delivered. -/
def Delivery.bytes (delivery : Delivery) : List Byte :=
  delivery.data.take delivery.size

inductive SesEvent
  /-- `read` with room for so many bytes. -/
  | read (room : ℕ)
  /-- `decode_pkg`. -/
  | decode (data : List Byte)
  /-- `on_recv_pkg`. -/
  | recvPkg (delivery : Delivery)
  /-- `on_recv_fd`. -/
  | recvFd
  /-- `on_error`. -/
  | error (msg : String)
  /-- `on_close`. -/
  | close

/-- What a session is given: the decoder, which returns a number and changes bytes
in place; whether the callback that comes last in a trace closes the session; and
the memory a buffer from the pool has. -/
structure SesType where
  decodePkg : List Byte → ℤ × List Byte
  closes : List SesEvent → Bool
  size : ℕ
  memory : List SesEvent → List Byte
  decode_length : ∀ data, (decodePkg data).2.length = data.length
  size_pos : 0 < size
  memory_length : ∀ trace, (memory trace).length = size

/-- `nw_ses`. `socket` are the bytes of the stream that are not read yet. -/
structure Session where
  readBuf : Option NwBuf
  closed : Bool
  socket : List Byte
  trace : List SesEvent

/-- A session that starts. -/
def Session.start (socket : List Byte) : Session where
  readBuf := none
  closed := false
  socket := socket
  trace := []

def Session.note (ses : Session) (event : SesEvent) : Session :=
  { ses with trace := ses.trace ++ [event] }

/-- The packages delivered. -/
def Session.deliveries (ses : Session) : List Delivery :=
  ses.trace.filterMap fun
    | .recvPkg delivery => some delivery
    | _ => none

theorem Session.note_deliveries (ses : Session) (event : SesEvent)
    (other : ∀ delivery, event ≠ .recvPkg delivery) :
    (ses.note event).deliveries = ses.deliveries := by
  unfold Session.note Session.deliveries
  rw [List.filterMap_append]
  cases event with
  | recvPkg delivery => exact absurd rfl (other delivery)
  | _ => exact List.append_nil _

theorem Session.note_delivery (ses : Session) (delivery : Delivery) :
    (ses.note (.recvPkg delivery)).deliveries = ses.deliveries ++ [delivery] := by
  unfold Session.note Session.deliveries
  rw [List.filterMap_append]
  rfl

section Read

variable (T : SesType)

/-- Call a callback, which may close the session and with it free the buffer. -/
def callback (ses : Session) (event : SesEvent) : Session :=
  let ses := ses.note event
  if T.closes ses.trace then { ses with closed := true, readBuf := none } else ses

/-- A callback closes the session, or it only happens. -/
theorem callback_cases (ses : Session) (event : SesEvent) :
    ((callback T ses event).closed = true ∧ (callback T ses event).readBuf = none ∧
        T.closes (callback T ses event).trace = true) ∨
      callback T ses event = ses.note event := by
  unfold callback
  by_cases closes : T.closes (ses.note event).trace = true
  · rw [if_pos closes]
    exact Or.inl ⟨rfl, rfl, closes⟩
  · exact Or.inr (if_neg closes)

@[simp]
theorem callback_trace (ses : Session) (event : SesEvent) :
    (callback T ses event).trace = ses.trace ++ [event] := by
  unfold callback
  simp only
  split <;> rfl

@[simp]
theorem callback_socket (ses : Session) (event : SesEvent) :
    (callback T ses event).socket = ses.socket := by
  unfold callback
  simp only
  split <;> rfl

theorem callback_deliveries (ses : Session) (event : SesEvent) :
    (callback T ses event).deliveries = (ses.note event).deliveries := by
  unfold Session.deliveries
  rw [callback_trace]
  rfl

/-- `nw_buf_alloc`. -/
def nwBufAlloc (ses : Session) : NwBuf where
  data := T.memory ses.trace
  rpos := 0
  wpos := 0

/-! ## Streams -/

/-- What a call of `read` meets in a stream. -/
inductive ReadResult
  /-- Some more bytes, at most `n + 1`, if there are any. -/
  | bytes (n : ℕ)
  /-- `EINTR`. -/
  | interrupted
  /-- Any other error but `EAGAIN`. -/
  | error (msg : String)
  /-- The end of the stream. -/
  | closed

/-- The loop that takes packages from the buffer; no buffer when `on_can_read`
returns from it. -/
def readPkgs (ses : Session) (buf : NwBuf) : Session × Option NwBuf :=
  if buf.rpos < buf.wpos then
    let ret := (T.decodePkg buf.unread).1
    let ses := ses.note (.decode buf.unread)
    let given := buf.unread
    let buf := { buf with data := overwrite buf.data buf.rpos (T.decodePkg given).2 }
    let ses := { ses with readBuf := some buf }
    if ret < 0 then (callback T ses (.error s!"decode msg error: {ret}"), none)
    else if 0 < ret then
      let ses := callback T ses (.recvPkg ⟨given, buf.data.drop buf.rpos, ret.toNat⟩)
      if ses.readBuf.isNone then (ses, none)
      else readPkgs ses { buf with rpos := buf.rpos + ret.toNat }
    else
      let buf := nwBufShift buf
      let ses := { ses with readBuf := some buf }
      if buf.wpos = buf.data.length then (callback T ses (.error "decode msg error"), none)
      else (ses, some buf)
  else (ses, some buf)
termination_by buf.wpos - buf.rpos

/-- The end of `on_can_read` for a stream: an empty buffer goes back. -/
def readAgain (ses : Session) (buf : NwBuf) : Session :=
  if nwBufSize buf = 0 then { ses with readBuf := none } else { ses with readBuf := some buf }

/-- `on_can_read` for `SOCK_STREAM`. After the last result, and when no bytes are
left, `read` fails with `EAGAIN`. -/
def readStream : List ReadResult → Session → NwBuf → Session
  | [], ses, buf => readAgain (ses.note (.read (nwBufAvail buf))) buf
  | result :: results, ses, buf =>
      let ses := { ses with readBuf := some buf }
      let ses := ses.note (.read (nwBufAvail buf))
      match result with
      | .interrupted => readStream results ses buf
      | .error msg => callback T ses (.error s!"read error: {msg}")
      | .closed => callback T ses .close
      | .bytes n =>
          if nwBufAvail buf = 0 then callback T ses .close
          else if ses.socket = [] then readAgain ses buf
          else
            let bytes := ses.socket.take (min (n + 1) (nwBufAvail buf))
            let ses := { ses with socket := ses.socket.drop bytes.length }
            let buf :=
              { buf with
                data := overwrite buf.data buf.wpos bytes
                wpos := buf.wpos + bytes.length }
            match readPkgs T ses buf with
            | (ses, none) => ses
            | (ses, some buf) => readStream results ses (nwBufShift buf)

/-- `on_can_read` for a stream. -/
def onCanReadStream (ses : Session) (results : List ReadResult) : Session :=
  if ses.closed then ses
  else readStream T results ses (ses.readBuf.getD (nwBufAlloc T ses))

/-! ## Datagrams and packets -/

/-- The control data of a message. -/
inductive Control
  | none
  /-- `SCM_RIGHTS`. -/
  | rights
  | other

/-- What a call of `recvfrom` or `recvmsg` meets. -/
inductive RecvResult
  | message (data : List Byte) (control : Control)
  /-- `EINTR`. -/
  | interrupted
  /-- Any other error but `EAGAIN`. -/
  | error (msg : String)

/-- Decode the first `size` bytes of the buffer and deliver them: what the two
kinds of sockets have in common. `false` when `on_can_read` returns. -/
def recvPkg (ses : Session) (buf : NwBuf) (size : ℕ) : Session × NwBuf × Bool :=
  let given := buf.data.take size
  let ret := (T.decodePkg given).1
  let ses := ses.note (.decode given)
  let buf := { buf with data := overwrite buf.data 0 (T.decodePkg given).2 }
  let ses := { ses with readBuf := some buf }
  if ret < 0 then (callback T ses (.error s!"decode msg error: {ret}"), buf, false)
  else
    let ses := callback T ses (.recvPkg ⟨given, buf.data, ret.toNat⟩)
    (ses, buf, ses.readBuf.isSome)

/-- `on_can_read` for `SOCK_DGRAM`. After the last result `recvfrom` fails with
`EAGAIN`. A message too long for the buffer is cut. -/
def recvDatagrams : List RecvResult → Session → NwBuf → Session
  | [], ses, _ => { ses with readBuf := none }
  | result :: results, ses, buf =>
      match result with
      | .interrupted => recvDatagrams results ses buf
      | .error msg => callback T { ses with readBuf := some buf } (.error s!"recvfrom error: {msg}")
      | .message data _ =>
          let bytes := data.take buf.data.length
          let buf := { buf with data := overwrite buf.data 0 bytes }
          match recvPkg T ses buf bytes.length with
          | (ses, _, false) => ses
          | (ses, buf, true) => recvDatagrams results ses buf

/-- `on_can_read` for `SOCK_SEQPACKET`. -/
def recvPackets : List RecvResult → Session → NwBuf → Session
  | [], ses, _ => { ses with readBuf := none }
  | result :: results, ses, buf =>
      match result with
      | .interrupted => recvPackets results ses buf
      | .error msg => callback T { ses with readBuf := some buf } (.error s!"recvmsg error: {msg}")
      | .message data control =>
          let bytes := data.take buf.data.length
          let buf := { buf with data := overwrite buf.data 0 bytes }
          let ses := { ses with readBuf := some buf }
          if bytes.length = 0 then callback T ses .close
          else
            match control with
            | .rights => recvPackets results (callback T ses .recvFd) buf
            | .other => recvPackets results ses buf
            | .none =>
                match recvPkg T ses buf bytes.length with
                | (ses, _, false) => ses
                | (ses, buf, true) => recvPackets results ses buf

/-- The two types of sockets that keep messages apart. -/
inductive MessageSocket
  | dgram
  | seqpacket
  deriving DecidableEq

/-- `on_can_read` for messages. -/
def onCanRead (type : MessageSocket) (ses : Session) (results : List RecvResult) : Session :=
  if ses.closed then ses
  else
    let buf := ses.readBuf.getD (nwBufAlloc T ses)
    match type with
    | .dgram => recvDatagrams T results ses buf
    | .seqpacket => recvPackets T results ses buf

end Read

end ViabtcServer.Network
