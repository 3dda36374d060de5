import ViabtcServer.Network.Stream

/-!
# Packages from datagrams and packets

On sockets that keep messages apart `on_can_read` delivers whatever the decoder
does not refuse. A decoder that returns zero, as `rpc_decode` does for a package
of which a part is missing, has its message delivered with a size of zero.
-/

namespace ViabtcServer.Network

open Wire

/-- What `decode_pkg` is called with. -/
def Session.received (ses : Session) : List (List Byte) :=
  ses.trace.filterMap fun
    | .decode data => some data
    | _ => none

/-- The calls of `on_can_read` for messages. -/
def runMessages (T : SesType) (type : MessageSocket) (ses : Session)
    (calls : List (List RecvResult)) : Session :=
  calls.foldl (onCanRead T type) ses

/-- The decoder returned a positive number of the bytes it was given, and these are
delivered as it left them. -/
structure Valid (T : SesType) (delivery : Delivery) : Prop where
  size : (T.decodePkg delivery.given).1 = delivery.size
  pos : 0 < delivery.size
  received : delivery.size ≤ delivery.given.length
  bytes : (T.decodePkg delivery.given).2 <+: delivery.data

/-- Bytes the decoder refuses, or takes as a package. -/
def Decides (T : SesType) (data : List Byte) : Prop :=
  (T.decodePkg data).1 < 0 ∨ 0 < (T.decodePkg data).1 ∧ (T.decodePkg data).1 ≤ data.length

/-- An RPC package is delivered complete and with its checksum verified. -/
structure RpcSound (host : HostOrder) (delivery : Delivery) : Prop where
  pos : 0 < delivery.size
  received : delivery.size ≤ delivery.given.length
  size : delivery.size = (RpcHead.read .little delivery.given).size
  crc32 : (RpcHead.read .little delivery.given).crc32 =
    generateCrc32c (zeroCrc delivery.given) delivery.size
  inside : (onRecvPkg host delivery.data).Inside delivery.size

/-- A header of which a part is missing, or that tells more bytes than there are,
or, in a `uint32_t`, none with no checksum. -/
def Incomplete (data : List Byte) : Prop :=
  data.length < 36 ∨ (RpcHead.read .little data).magic = rpcPkgMagic ∧
    (data.length < (RpcHead.read .little data).size32.toNat ∨
      (RpcHead.read .little data).size32 = 0 ∧ (RpcHead.read .little data).crc32 = 0)

/-! ## What is delivered -/

section Messages

variable {T : SesType} {ses : Session} {buf : NwBuf} {messages : List Byte → Prop}

/-- A message is delivered if the decoder does not refuse it, with the size the
decoder returns. -/
structure Delivered (T : SesType) (delivery : Delivery) : Prop where
  nonneg : 0 ≤ (T.decodePkg delivery.given).1
  size : (T.decodePkg delivery.given).1 = delivery.size
  bytes : (T.decodePkg delivery.given).2 <+: delivery.data

/-- What is delivered is what the decoder was given and did not refuse. -/
structure Traced (T : SesType) (messages : List Byte → Prop) (ses : Session) : Prop where
  delivered : ∀ delivery ∈ ses.deliveries,
    delivery.given ∈ ses.received ∧ Delivered T delivery
  accepted : ∀ data ∈ ses.received, 0 ≤ (T.decodePkg data).1 →
    ∃ delivery ∈ ses.deliveries, delivery.given = data
  sent : ∀ data ∈ ses.received, ∃ message, messages message ∧ data = message.take T.size
  buffer : ∀ buf, ses.readBuf = some buf → buf.data.length = T.size

theorem Traced.quiet {ses' : Session} {event : SesEvent} (traced : Traced T messages ses)
    (trace : ses'.trace = ses.trace ++ [event]) (noDelivery : ∀ delivery, event ≠ .recvPkg delivery)
    (noDecode : ∀ data, event ≠ .decode data)
    (buffer : ∀ buf, ses'.readBuf = some buf → buf.data.length = T.size) :
    Traced T messages ses' := by
  have deliveries : ses'.deliveries = ses.deliveries := by
    unfold Session.deliveries
    rw [trace, List.filterMap_append]
    cases event with
    | recvPkg delivery => exact absurd rfl (noDelivery delivery)
    | _ => exact List.append_nil _
  have received : ses'.received = ses.received := by
    unfold Session.received
    rw [trace, List.filterMap_append]
    cases event with
    | decode data => exact absurd rfl (noDecode data)
    | _ => exact List.append_nil _
  constructor
  · rw [deliveries, received]
    exact traced.delivered
  · rw [deliveries, received]
    exact traced.accepted
  · rw [received]
    exact traced.sent
  · exact buffer

/-- A message the decoder refuses. -/
theorem Traced.refused {ses' : Session} {data : List Byte} {msg : String}
    (traced : Traced T messages ses)
    (trace : ses'.trace = ses.trace ++ [.decode data, .error msg])
    (negative : (T.decodePkg data).1 < 0)
    (message : ∃ message, messages message ∧ data = message.take T.size)
    (buffer : ∀ buf, ses'.readBuf = some buf → buf.data.length = T.size) :
    Traced T messages ses' := by
  have deliveries : ses'.deliveries = ses.deliveries := by
    unfold Session.deliveries
    rw [trace, List.filterMap_append]
    exact List.append_nil _
  have received : ses'.received = ses.received ++ [data] := by
    unfold Session.received
    rw [trace, List.filterMap_append]
    rfl
  constructor
  · rw [deliveries, received]
    intro delivery mem
    obtain ⟨given, delivered⟩ := traced.delivered delivery mem
    exact ⟨List.mem_append_left _ given, delivered⟩
  · rw [deliveries, received]
    intro data' mem nonneg
    rcases List.mem_append.mp mem with old | new
    · exact traced.accepted data' old nonneg
    · rw [List.mem_singleton.mp new] at nonneg
      exact absurd negative (Int.not_lt.mpr nonneg)
  · rw [received]
    intro data' mem
    rcases List.mem_append.mp mem with old | new
    · exact traced.sent data' old
    · rw [List.mem_singleton.mp new]
      exact message
  · exact buffer

/-- A message the decoder does not refuse. -/
theorem Traced.taken {ses' : Session} {delivery : Delivery} (traced : Traced T messages ses)
    (trace : ses'.trace = ses.trace ++ [.decode delivery.given, .recvPkg delivery])
    (delivered : Delivered T delivery)
    (message : ∃ message, messages message ∧ delivery.given = message.take T.size)
    (buffer : ∀ buf, ses'.readBuf = some buf → buf.data.length = T.size) :
    Traced T messages ses' := by
  have deliveries : ses'.deliveries = ses.deliveries ++ [delivery] := by
    unfold Session.deliveries
    rw [trace, List.filterMap_append]
    rfl
  have received : ses'.received = ses.received ++ [delivery.given] := by
    unfold Session.received
    rw [trace, List.filterMap_append]
    rfl
  constructor
  · rw [deliveries, received]
    intro delivery' mem
    rcases List.mem_append.mp mem with old | new
    · obtain ⟨given, delivered'⟩ := traced.delivered delivery' old
      exact ⟨List.mem_append_left _ given, delivered'⟩
    · rw [List.mem_singleton.mp new]
      exact ⟨List.mem_append_right _ List.mem_cons_self, delivered⟩
  · rw [deliveries, received]
    intro data mem nonneg
    rcases List.mem_append.mp mem with old | new
    · obtain ⟨delivery', mem', given⟩ := traced.accepted data old nonneg
      exact ⟨delivery', List.mem_append_left _ mem', given⟩
    · exact ⟨delivery, List.mem_append_right _ List.mem_cons_self, (List.mem_singleton.mp new).symm⟩
  · rw [received]
    intro data mem
    rcases List.mem_append.mp mem with old | new
    · exact traced.sent data old
    · rw [List.mem_singleton.mp new]
      exact message
  · exact buffer

/-- A callback keeps the buffer or frees it. -/
theorem callback_buffer {event : SesEvent}
    (buffer : ∀ buf, ses.readBuf = some buf → buf.data.length = T.size) :
    ∀ buf, (callback T ses event).readBuf = some buf → buf.data.length = T.size := by
  rcases callback_cases T ses event with ⟨_, freed, _⟩ | same
  · rw [freed]
    exact nofun
  · rw [same]
    exact buffer

theorem Traced.store {readBuf : Option NwBuf} (traced : Traced T messages ses)
    (buffer : ∀ buf, readBuf = some buf → buf.data.length = T.size) :
    Traced T messages { ses with readBuf := readBuf } :=
  ⟨traced.delivered, traced.accepted, traced.sent, buffer⟩

/-- A callback that is told of no package. -/
theorem Traced.report {event : SesEvent} (traced : Traced T messages ses)
    (noDelivery : ∀ delivery, event ≠ .recvPkg delivery) (noDecode : ∀ data, event ≠ .decode data) :
    Traced T messages (callback T ses event) :=
  traced.quiet (callback_trace T ses event) noDelivery noDecode (callback_buffer traced.buffer)

/-- The loop goes on with the next message, or `on_can_read` returns. -/
theorem Traced.next {out : Session × NwBuf × Bool} {loop : Session → NwBuf → Session} :
    (∀ ses buf, Traced T messages ses → buf.data.length = T.size →
      Traced T messages (loop ses buf)) →
    Traced T messages out.1 ∧ out.2.1.data.length = T.size →
      Traced T messages (match out with
        | (ses, _, false) => ses
        | (ses, buf, true) => loop ses buf) := by
  rintro read ⟨traced, length⟩
  rcases out with ⟨ses, buf, _ | _⟩
  · exact traced
  · exact read ses buf traced length

/-- A message in the buffer is decoded and delivered. -/
theorem recvPkg_traced (buf : NwBuf) {message : List Byte} (traced : Traced T messages ses)
    (length : buf.data.length = T.size) (mem : messages message)
    (start : message.take T.size <+: buf.data) :
    Traced T messages (recvPkg T ses buf (message.take T.size).length).1 ∧
      (recvPkg T ses buf (message.take T.size).length).2.1.data.length = T.size := by
  have given : buf.data.take (message.take T.size).length = message.take T.size :=
    (List.prefix_iff_eq_take.mp start).symm
  have decoded := T.decode_length (message.take T.size)
  have room : 0 + (T.decodePkg (message.take T.size)).2.length ≤ buf.data.length := by
    rw [decoded, Nat.zero_add]
    exact start.length_le
  have after : (overwrite buf.data 0 (T.decodePkg (message.take T.size)).2).length = T.size :=
    (overwrite_length room).trans length
  have buffer : ∀ buf', some { buf with
      data := overwrite buf.data 0 (T.decodePkg (message.take T.size)).2 } = some buf' →
        buf'.data.length = T.size := by
    rintro buf' ⟨⟩
    exact after
  have trace (event : SesEvent) : (callback T
      { ses.note (.decode (message.take T.size)) with
        readBuf := some { buf with
          data := overwrite buf.data 0 (T.decodePkg (message.take T.size)).2 } } event).trace =
      ses.trace ++ [.decode (message.take T.size), event] := by
    rw [callback_trace]
    exact List.append_assoc _ _ _
  unfold recvPkg
  simp only [given]
  by_cases negative : (T.decodePkg (message.take T.size)).1 < 0
  · rw [if_pos negative]
    exact ⟨traced.refused (trace _) negative ⟨message, mem, rfl⟩ (callback_buffer buffer), after⟩
  · rw [if_neg negative]
    have nonneg := Int.not_lt.mp negative
    have bytes : (T.decodePkg (message.take T.size)).2 <+:
        overwrite buf.data 0 (T.decodePkg (message.take T.size)).2 := by
      rw [overwrite_zero]
      exact List.prefix_append _ _
    have delivered : Delivered T ⟨message.take T.size,
        overwrite buf.data 0 (T.decodePkg (message.take T.size)).2,
        (T.decodePkg (message.take T.size)).1.toNat⟩ :=
      ⟨nonneg, (Int.toNat_of_nonneg nonneg).symm, bytes⟩
    exact ⟨traced.taken (trace _) delivered ⟨message, mem, rfl⟩ (callback_buffer buffer), after⟩

/-- A message is put at the start of the buffer. -/
theorem receive_eq (message : List Byte) (length : buf.data.length = T.size) :
    (overwrite buf.data 0 (message.take buf.data.length)).length = T.size ∧
      message.take T.size <+: overwrite buf.data 0 (message.take buf.data.length) := by
  constructor
  · refine (overwrite_length ?_).trans length
    rw [Nat.zero_add, List.length_take]
    exact min_le_left _ _
  · rw [overwrite_zero, length]
    exact List.prefix_append _ _

/-- And then decoded and delivered. -/
theorem received_traced {message : List Byte} (traced : Traced T messages ses)
    (length : buf.data.length = T.size) (mem : messages message) :
    Traced T messages (recvPkg T ses
        { buf with data := overwrite buf.data 0 (message.take buf.data.length) }
        (message.take buf.data.length).length).1 ∧
      (recvPkg T ses { buf with data := overwrite buf.data 0 (message.take buf.data.length) }
        (message.take buf.data.length).length).2.1.data.length = T.size := by
  obtain ⟨length', start⟩ := receive_eq message length
  have step := recvPkg_traced
    { buf with data := overwrite buf.data 0 (message.take buf.data.length) }
    traced length' mem start
  rw [length] at step ⊢
  exact step

theorem recvDatagrams_traced {results : List RecvResult} (traced : Traced T messages ses)
    (length : buf.data.length = T.size)
    (sent : ∀ data control, .message data control ∈ results → messages data) :
    Traced T messages (recvDatagrams T results ses buf) := by
  induction results generalizing ses buf with
  | nil => exact traced.store nofun
  | cons result results ih =>
      have rest := fun data control mem => sent data control (List.mem_cons_of_mem _ mem)
      cases result with
      | interrupted => exact ih traced length rest
      | error msg =>
          refine (traced.store ?_).report nofun nofun
          rintro buf' ⟨⟩
          exact length
      | message data control =>
          exact Traced.next (fun _ _ traced length => ih traced length rest)
            (received_traced traced length (sent data control List.mem_cons_self))

theorem recvPackets_traced {results : List RecvResult} (traced : Traced T messages ses)
    (length : buf.data.length = T.size)
    (sent : ∀ data control, .message data control ∈ results → messages data) :
    Traced T messages (recvPackets T results ses buf) := by
  induction results generalizing ses buf with
  | nil => exact traced.store nofun
  | cons result results ih =>
      have rest := fun data control mem => sent data control (List.mem_cons_of_mem _ mem)
      cases result with
      | interrupted => exact ih traced length rest
      | error msg =>
          refine (traced.store ?_).report nofun nofun
          rintro buf' ⟨⟩
          exact length
      | message data control =>
          have length' := (receive_eq data length).1
          have stored : Traced T messages { ses with readBuf := some { buf with
              data := overwrite buf.data 0 (data.take buf.data.length) } } := by
            apply traced.store
            rintro buf' ⟨⟩
            exact length'
          unfold recvPackets
          simp only
          split
          · exact stored.report nofun nofun
          · cases control with
            | rights => exact ih (stored.report nofun nofun) length' rest
            | other => exact ih stored length' rest
            | none =>
                exact Traced.next (fun _ _ traced length => ih traced length rest)
                  (received_traced stored length (sent data .none List.mem_cons_self))

theorem onCanRead_traced {type : MessageSocket} {results : List RecvResult}
    (traced : Traced T messages ses)
    (sent : ∀ data control, .message data control ∈ results → messages data) :
    Traced T messages (onCanRead T type ses results) := by
  have length : (ses.readBuf.getD (nwBufAlloc T ses)).data.length = T.size := by
    cases held : ses.readBuf with
    | none => exact T.memory_length _
    | some buf => exact traced.buffer buf held
  unfold onCanRead
  split
  · exact traced
  · cases type with
    | dgram => exact recvDatagrams_traced traced length sent
    | seqpacket => exact recvPackets_traced traced length sent

theorem runMessages_traced {type : MessageSocket} {calls : List (List RecvResult)}
    (traced : Traced T messages ses)
    (sent : ∀ results ∈ calls, ∀ data control, .message data control ∈ results → messages data) :
    Traced T messages (runMessages T type ses calls) := by
  induction calls generalizing ses with
  | nil => exact traced
  | cons results calls ih =>
      apply ih (onCanRead_traced traced (sent results List.mem_cons_self))
      exact fun results mem => sent results (List.mem_cons_of_mem _ mem)

/-- Something holds of all that is delivered when something holds of all that is
received. -/
theorem Traced.forall_iff {p : Delivery → Prop} {q : List Byte → Prop}
    (traced : Traced T messages ses)
    (same : ∀ delivery, Delivered T delivery → (p delivery ↔ q delivery.given))
    (refused : ∀ data, (T.decodePkg data).1 < 0 → q data) :
    (∀ delivery ∈ ses.deliveries, p delivery) ↔ ∀ data ∈ ses.received, q data := by
  constructor
  · intro all data mem
    by_cases negative : (T.decodePkg data).1 < 0
    · exact refused data negative
    · obtain ⟨delivery, mem', rfl⟩ := traced.accepted data mem (Int.not_lt.mp negative)
      exact (same delivery (traced.delivered delivery mem').2).mp (all delivery mem')
  · intro all delivery mem
    obtain ⟨given, delivered⟩ := traced.delivered delivery mem
    exact (same delivery delivered).mpr (all _ given)

theorem Delivered.valid_iff {delivery : Delivery} (delivered : Delivered T delivery) :
    Valid T delivery ↔ Decides T delivery.given := by
  have size := delivered.size
  constructor
  · intro valid
    have pos := valid.pos
    have received := valid.received
    refine Or.inr ⟨?_, ?_⟩ <;> omega
  · rintro (negative | ⟨pos, received⟩)
    · exact absurd delivered.nonneg (Int.not_le.mpr negative)
    · exact ⟨size, by omega, by omega, delivered.bytes⟩

end Messages

/-! ## RPC packages -/

theorem rpcDecode_eq_zero_iff (host : HostOrder) (data : List Byte) :
    (rpcDecode host data).1 = 0 ↔ Incomplete data := by
  unfold Incomplete
  by_cases enough : 36 ≤ data.length
  swap
  · rw [rpcDecode_short (not_le.mp enough)]
    exact ⟨fun _ => Or.inl (not_le.mp enough), fun _ => rfl⟩
  have long : ¬ data.length < 36 := not_lt.mpr enough
  have none_ : generateCrc32c (zeroCrc data) 0 = 0 := by
    unfold generateCrc32c
    exact BitVec.not_not
  rw [rpcDecode_eq enough]
  by_cases magic : (RpcHead.read .little data).magic = rpcPkgMagic
  swap
  · rw [if_pos magic]
    constructor
    · exact fun eq => absurd eq (by decide : ¬ (-1 : ℤ) = 0)
    · rintro (short | ⟨same, _⟩)
      · exact absurd short long
      · exact absurd same magic
  rw [if_neg (not_not_intro magic)]
  by_cases more : data.length < (RpcHead.read .little data).size32.toNat
  · rw [if_pos more]
    exact ⟨fun _ => Or.inr ⟨magic, Or.inl more⟩, fun _ => rfl⟩
  rw [if_neg more]
  by_cases crc32 : (RpcHead.read .little data).crc32 =
      generateCrc32c (zeroCrc data) (RpcHead.read .little data).size32.toNat
  · rw [if_neg (not_not_intro crc32)]
    constructor
    · intro zero
      have size : (RpcHead.read .little data).size32 = 0 := BitVec.eq_of_toInt_eq zero
      refine Or.inr ⟨magic, Or.inr ⟨size, ?_⟩⟩
      rw [crc32, size]
      exact none_
    · rintro (short | ⟨_, short | ⟨size, _⟩⟩)
      · exact absurd short long
      · exact absurd short more
      · change (RpcHead.read .little data).size32.toInt = 0
        rw [size]
        rfl
  · rw [if_pos crc32]
    constructor
    · exact fun eq => absurd eq (by decide : ¬ (-3 : ℤ) = 0)
    · rintro (short | ⟨_, short | ⟨size, zero⟩⟩)
      · exact absurd short long
      · exact absurd short more
      · rw [size, zero] at crc32
        exact absurd none_.symm crc32

/-- A session with the decoder of RPC packages. -/
def SesType.rpc (T : SesType) (host : HostOrder) : SesType :=
  { T with
    decodePkg := rpcDecode host
    decode_length := rpcDecode_length host }

theorem Delivered.rpcSound_iff {T : SesType} {host : HostOrder} {delivery : Delivery}
    (delivered : Delivered (T.rpc host) delivery) :
    RpcSound host delivery ↔ ¬ Incomplete delivery.given ∧ ¬ Wraps delivery.given := by
  have size : (rpcDecode host delivery.given).1 = delivery.size := delivered.size
  constructor
  · intro sound
    have pos := sound.pos
    have sizes := sound.size
    constructor
    · rw [← rpcDecode_eq_zero_iff host, size]
      omega
    · intro wraps
      have wrapped := wraps.decode host
      omega
  · rintro ⟨complete, whole⟩
    have lengths := lengthSound_of_not_wraps host whole
    have pos : 0 < (rpcDecode host delivery.given).1 := by
      rw [← rpcDecode_eq_zero_iff host, size] at complete
      omega
    have received := lengths.received pos
    have head : RpcHead.read host delivery.data =
        RpcHead.read host (rpcDecode host delivery.given).2 := by
      have enough := (accepted_of_pos pos).enough
      rw [← rpcDecode_length host] at enough
      obtain ⟨after, eq⟩ := delivered.bytes
      rw [← eq]
      exact RpcHead.read_append enough after
    constructor
    · omega
    · omega
    · have sizes := lengths.size pos
      omega
    · have crc32 := lengths.crc32 pos
      rwa [size, Int.toNat_natCast] at crc32
    · have inside := lengths.inside pos
      unfold onRecvPkg at inside ⊢
      rw [head]
      rwa [size, Int.toNat_natCast] at inside

/-- What is delivered from datagrams and packets is valid exactly when the decoder
refuses or takes every message received; of RPC packages, exactly when none is
incomplete and none has sizes that wrap around. -/
theorem messages_validated (T : SesType) (type : MessageSocket) (calls : List (List RecvResult)) :
    ((∀ delivery ∈ (runMessages T type (Session.start []) calls).deliveries, Valid T delivery) ↔
        ∀ data ∈ (runMessages T type (Session.start []) calls).received, Decides T data) ∧
      (∀ host, (∀ delivery ∈ (runMessages (T.rpc host) type (Session.start []) calls).deliveries,
          RpcSound host delivery) ↔
        ∀ data ∈ (runMessages (T.rpc host) type (Session.start []) calls).received,
          ¬ Incomplete data ∧ ¬ Wraps data) ∧
      ∀ data ∈ (runMessages T type (Session.start []) calls).received,
        ∃ results ∈ calls, ∃ message control, .message message control ∈ results ∧
          data = message.take T.size := by
  have traced (T : SesType) : Traced T (fun message => ∃ results ∈ calls, ∃ control,
      .message message control ∈ results) (runMessages T type (Session.start []) calls) := by
    have start : Traced T (fun message => ∃ results ∈ calls, ∃ control,
        .message message control ∈ results) (Session.start []) := by
      constructor
      · exact fun _ mem => absurd mem List.not_mem_nil
      · exact fun _ mem => absurd mem List.not_mem_nil
      · exact fun _ mem => absurd mem List.not_mem_nil
      · exact fun _ held => absurd held (Option.some_ne_none _).symm
    apply runMessages_traced start
    exact fun results mem data control mem' => ⟨results, mem, control, mem'⟩
  refine ⟨?_, ?_, ?_⟩
  · exact (traced T).forall_iff (fun _ delivered => delivered.valid_iff) fun _ => Or.inl
  · intro host
    apply (traced (T.rpc host)).forall_iff (fun _ delivered => delivered.rpcSound_iff)
    intro data negative
    have refused : (rpcDecode host data).1 < 0 := negative
    constructor
    · rw [← rpcDecode_eq_zero_iff host]
      omega
    · intro wraps
      have wrapped := wraps.decode host
      have more := wraps.more
      omega
  · intro data mem
    obtain ⟨message, ⟨results, mem', control, sent⟩, eq⟩ := (traced T).sent data mem
    exact ⟨results, mem', message, control, sent, eq⟩

/-- A datagram of one byte is delivered with a size of zero. -/
theorem datagram_truncated :
    (runMessages (rpcSes .little) .dgram (Session.start []) [[.message [1] .none]]).deliveries.map
        Delivery.size = [0] ∧
      ¬ ∀ T type calls, ∀ delivery ∈ (runMessages T type (Session.start []) calls).deliveries,
        Valid T delivery := by
  have zero : (runMessages (rpcSes .little) .dgram (Session.start [])
      [[.message [1] .none]]).deliveries.map Delivery.size = [0] := by
    decide +kernel
  refine ⟨zero, fun valid => ?_⟩
  obtain ⟨delivery, mem, size⟩ := List.mem_map.mp (zero ▸ List.mem_cons_self)
  exact absurd (valid _ _ _ delivery mem).pos (by omega)

end ViabtcServer.Network
