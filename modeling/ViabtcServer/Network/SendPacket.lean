import ViabtcServer.Network.Send

/-!
# Packets that wait

A `SOCK_SEQPACKET` session sends its packets in order, each once, as long as the
socket takes those that wait when it can be written to. When it does not,
`on_can_write` drops them: the -1 of `nw_write_packet` is compared with a size.
-/

namespace ViabtcServer.Network

open Wire

/-- The packets that wait. -/
def NwBufList.packets (list : NwBufList) : List (List Byte) :=
  list.bufs.map NwBuf.unread

/-- No packet is lost or sent twice, and each fault of the socket is reported. When
the session was closed, what waited is gone. -/
structure Kept (run : SendRun) : Prop where
  packets : run.ses.opened = true → run.ses.sent ++ run.ses.writeBuf.packets = run.given
  sent : run.ses.sent <+: run.given
  reported : run.ses.faults ≤ run.ses.errors.length

/-- The socket takes `n` packets, after any number of interruptions. -/
def Takes : List WriteResult → ℕ → Prop
  | _, 0 => True
  | [], _ + 1 => False
  | .taken _ :: results, n + 1 => Takes results n
  | .failed errno :: results, n + 1 => errno = .interrupted ∧ Takes results (n + 1)

/-- A packet is of a size an `int` can count, and an empty one is not sent to a full
list; and when the socket can be written to, it takes all that waits. -/
def SendEvent.Served (run : SendRun) : SendEvent → Prop
  | .send data _ => data.length < 2 ^ 31 ∧ (data = [] → ¬run.ses.writeBuf.Full)
  | .canWrite results => Takes results run.ses.writeBuf.bufs.length

/-- In each step of a run. -/
def SendRun.Served (T : SendType) (run : SendRun) : List SendEvent → Prop
  | [] => True
  | event :: events => event.Served run ∧ (run.step T event).Served T events

/-! ## What the socket takes -/

section Packet

variable {data : List Byte}

/-- A packet is taken whole, or not at all and `nw_write_packet` returns -1. -/
theorem nwWritePacket_cases (small : data.length < 2 ^ 31) (results : List WriteResult)
    (errno : Errno) :
    (∃ errno' rest, nwWritePacket data results errno =
      ⟨data.length, errno', [data], rest, true⟩) ∨
    ∃ errno' rest, nwWritePacket data results errno = ⟨-1, errno', [], rest, false⟩ := by
  induction results generalizing errno with
  | nil => exact Or.inr ⟨.again, [], rfl⟩
  | cons result results ih =>
      unfold nwWritePacket
      cases result with
      | taken n =>
          have ret := intOfSize_of_lt small
          have notNeg : ¬((data.length : ℤ) < 0 ∧ errno = .interrupted) := by
            rintro ⟨neg, _⟩
            omega
          simp only [ret]
          rw [if_neg notNeg]
          exact Or.inl ⟨errno, results, rfl⟩
      | failed errno' =>
          simp only
          split
          · exact ih errno'
          · exact Or.inr ⟨errno', results, rfl⟩

/-- When the socket takes packets, it takes this one first. -/
theorem nwWritePacket_takes (small : data.length < 2 ^ 31) {results : List WriteResult} {n : ℕ}
    (takes : Takes results (n + 1)) (errno : Errno) :
    ∃ errno' rest, nwWritePacket data results errno =
      ⟨data.length, errno', [data], rest, true⟩ ∧ Takes rest n := by
  induction results generalizing errno with
  | nil => exact takes.elim
  | cons result results ih =>
      unfold nwWritePacket
      cases result with
      | taken m =>
          have ret := intOfSize_of_lt small
          have notNeg : ¬((data.length : ℤ) < 0 ∧ errno = .interrupted) := by
            rintro ⟨neg, _⟩
            omega
          simp only [ret]
          rw [if_neg notNeg]
          exact ⟨errno, results, rfl, takes⟩
      | failed errno' =>
          obtain ⟨interrupted, takes⟩ := takes
          simp only
          rw [if_pos interrupted]
          exact ih takes errno'

end Packet

/-! ## One call -/

section Call

variable {T : SendType} {ses : SendSes}

/-- Each buffer holds a packet, whose size an `int` can count. -/
def NwBufList.Small (list : NwBufList) : Prop :=
  ∀ buf ∈ list.bufs, buf.Ok list.pool.size ∧ nwBufSize buf < 2 ^ 31

/-- The packets that wait are sent. -/
theorem writeBufs_takes (packet : T.sockType = .seqpacket) (bufs : List NwBuf)
    {results : List WriteResult} {ses : SendSes} (waits : ses.writeBuf.bufs = bufs)
    (small : ses.writeBuf.Small) (takes : Takes results bufs.length) :
    ∃ errno, writeBufs T bufs results ses =
      { ses with
        watch := .read
        writeBuf := { ses.writeBuf with bufs := [] }
        errno := errno
        sent := ses.sent ++ bufs.map NwBuf.unread } := by
  induction bufs generalizing results ses with
  | nil =>
      refine ⟨ses.errno, ?_⟩
      unfold writeBufs
      rw [List.map_nil, List.append_nil, ← waits]
  | cons buf bufs ih =>
      obtain ⟨ok, bound⟩ := small buf (waits ▸ List.mem_cons_self)
      have length : buf.unread.length = nwBufSize buf := ok.unread_length
      obtain ⟨errno, rest, write, takes⟩ :=
        @nwWritePacket_takes buf.unread (by omega) _ _ takes ses.errno
      have type : T.write buf.unread results ses.errno =
          nwWritePacket buf.unread results ses.errno := by
        unfold SendType.write
        rw [packet]
      have all : ¬sizeOfInt (buf.unread.length : ℤ) < nwBufSize buf := by
        rw [sizeOfInt_natCast (by omega)]
        omega
      have shifted : (nwBufListShift ses.writeBuf).bufs = bufs := by
        unfold nwBufListShift
        rw [waits]
        rfl
      unfold writeBufs
      simp only [type, write]
      rw [if_neg all]
      have small' : (nwBufListShift ses.writeBuf).Small := fun other there =>
        small other (List.mem_of_mem_tail there)
      obtain ⟨errno', eq⟩ := @ih rest
        ((ses.wrote ⟨buf.unread.length, errno, [buf.unread], rest, true⟩).queue
          (nwBufListShift ses.writeBuf)) shifted small' takes
      refine ⟨errno', eq.trans ?_⟩
      simp [SendSes.wrote, SendSes.queue, nwBufListShift, List.append_assoc]

/-- A packet waits behind the others, or an error is reported. -/
theorem sendQueued_packet (packet : T.sockType = .seqpacket) {data : List Byte}
    (room : data = [] → ¬ses.writeBuf.Full) :
    (∃ msg, sendQueued T ses data = (ses.onError T msg, -1)) ∨
      ∃ buf, sendQueued T ses data = (ses.queue
          { ses.writeBuf with bufs := ses.writeBuf.bufs ++ [buf] }, 0) ∧
        buf.Ok ses.writeBuf.pool.size ∧ buf.unread = data := by
  unfold sendQueued
  rw [packet]
  simp only
  rcases nwBufListAppend_spec ses.writeBuf data with ⟨none_, full⟩ | ⟨buf, append, ok, unread⟩
  · have some_ : data ≠ [] := fun empty => room empty (full empty)
    have short : (0 : ℕ) ≠ data.length := fun zero =>
      some_ (List.eq_nil_of_length_eq_zero zero.symm)
    rw [none_, if_pos short]
    exact Or.inl ⟨_, rfl⟩
  · rw [append, if_neg (not_not_intro rfl)]
    exact Or.inr ⟨buf, rfl, ok, unread⟩

/-- With nothing waiting a packet is sent, waits, or an error is reported. -/
theorem sendPacket_cases {data : List Byte} (small : data.length < 2 ^ 31)
    (none_ : ses.writeBuf.bufs = []) (results : List WriteResult) :
    (∃ errno, sendPacket T ses data results =
      ({ ses with errno := errno, sent := ses.sent ++ [data] }, 0)) ∨
    (∃ buf, sendPacket T ses data results =
        ({ ses with
            errno := .again
            watch := .readWrite
            writeBuf := { ses.writeBuf with bufs := [buf] } }, 0) ∧
      buf.Ok ses.writeBuf.pool.size ∧ buf.unread = data) ∨
    ∃ errno faults msg, faults ≤ ses.faults + 1 ∧ sendPacket T ses data results =
      (SendSes.onError T { ses with errno := errno, faults := faults } msg, -1) := by
  unfold sendPacket
  rcases nwWritePacket_cases small results ses.errno with
    ⟨errno, rest, write⟩ | ⟨errno, rest, write⟩
  · have notNeg : ¬(data.length : ℤ) < 0 := by omega
    simp only [write]
    rw [if_neg notNeg]
    refine Or.inl ⟨errno, ?_⟩
    simp [SendSes.wrote]
  · simp only [write]
    rw [if_pos (by decide)]
    by_cases again : errno = .again
    · rw [if_pos again]
      rcases nwBufListAppend_spec ses.writeBuf data with ⟨large, full⟩ | ⟨buf, append, ok, unread⟩
      · have some_ : data ≠ [] := by
          intro empty
          obtain ⟨limit, reached⟩ := full empty
          rw [none_] at reached
          exact limit (Nat.le_zero.mp reached)
        have short : (0 : ℕ) ≠ data.length := fun zero =>
          some_ (List.eq_nil_of_length_eq_zero zero.symm)
        simp only [SendSes.wrote_writeBuf, large]
        rw [if_pos short]
        refine Or.inr (Or.inr ⟨errno, ses.faults, "on send buf", Nat.le_succ _, ?_⟩)
        rw [again]
        simp [SendSes.wrote, SendSes.queue]
      · simp only [SendSes.wrote_writeBuf, append]
        rw [if_neg (not_not_intro rfl)]
        refine Or.inr (Or.inl ⟨buf, ?_, ok, unread⟩)
        rw [again]
        simp [SendSes.wrote, SendSes.queue, none_]
    · rw [if_neg again]
      refine Or.inr (Or.inr ⟨errno, ses.faults + 1, s!"sendmsg error: {errno.text}", le_rfl, ?_⟩)
      simp [SendSes.wrote, again]

end Call

/-! ## Runs -/

section Run

variable {T : SendType} {run : SendRun}

/-- What holds between the steps of a run. -/
structure SendRun.Tidy (run : SendRun) : Prop where
  kept : Kept run
  small : run.ses.writeBuf.Small

theorem SendRun.tidy_start (pool : NwBufPool) (limit : ℕ) : (SendRun.start pool limit).Tidy :=
  ⟨⟨fun _ => rfl, List.prefix_rfl, le_rfl⟩, fun _ absent => absurd absent List.not_mem_nil⟩

/-- An error is reported, and perhaps the session is closed. -/
theorem SendRun.Tidy.onError (tidy : run.Tidy) (errno : Errno) {faults : ℕ} (msg : String)
    (more : faults ≤ run.ses.faults + 1) :
    SendRun.Tidy
      { run with
        ses := SendSes.onError T { run.ses with errno := errno, faults := faults } msg
        refused := run.refused + 1 } := by
  have reported : faults ≤ (run.ses.errors ++ [msg]).length := by
    have before := tidy.kept.reported
    rw [List.length_append, List.length_singleton]
    omega
  unfold SendSes.onError
  simp only
  split
  · refine ⟨⟨?_, tidy.kept.sent, reported⟩, fun _ absent => absurd absent List.not_mem_nil⟩
    exact fun opened => absurd opened Bool.false_ne_true
  · exact ⟨⟨tidy.kept.packets, tidy.kept.sent, reported⟩, tidy.small⟩

/-- A packet that waits in a buffer of its own. -/
theorem SendRun.Tidy.wait (tidy : run.Tidy) {data : List Byte} (small : data.length < 2 ^ 31)
    {buf : NwBuf} (ok : buf.Ok run.ses.writeBuf.pool.size) (unread : buf.unread = data)
    (watch : Watch) (errno : Errno) :
    SendRun.Tidy
      { run with
        ses :=
          { run.ses with
            watch := watch
            errno := errno
            writeBuf := { run.ses.writeBuf with bufs := run.ses.writeBuf.bufs ++ [buf] } }
        given := run.given ++ [data] } := by
  refine ⟨⟨?_, tidy.kept.sent.trans (List.prefix_append _ _), tidy.kept.reported⟩, ?_⟩
  · intro opened
    have packets := tidy.kept.packets opened
    unfold NwBufList.packets at packets ⊢
    rw [List.map_append, ← List.append_assoc, packets, List.map_singleton, unread]
  · intro other mem
    rcases List.mem_append.mp mem with old | new
    · exact tidy.small other old
    · rw [List.mem_singleton.mp new]
      have length := ok.unread_length
      rw [unread] at length
      refine ⟨ok, ?_⟩
      unfold nwBufSize
      omega

/-- A packet is sent, waits, or is refused with an error. -/
theorem SendRun.Tidy.send (packet : T.sockType = .seqpacket) (tidy : run.Tidy) {data : List Byte}
    {results : List WriteResult} (served : (SendEvent.send data results).Served run) :
    (run.step T (.send data results)).Tidy := by
  obtain ⟨small, room⟩ := served
  unfold SendRun.step nwSesSend
  simp only
  by_cases closed : run.ses.opened = false
  · rw [if_pos closed]
    exact ⟨⟨tidy.kept.packets, tidy.kept.sent, tidy.kept.reported⟩, tidy.small⟩
  rw [if_neg closed]
  by_cases none_ : run.ses.writeBuf.bufs = []
  · rw [if_neg (not_not_intro none_), packet]
    simp only
    rcases sendPacket_cases (T := T) small none_ results with
      ⟨errno, sent⟩ | ⟨buf, waits, ok, unread⟩ | ⟨errno, faults, msg, more, failed⟩
    · rw [sent]
      have all := tidy.kept.packets (Bool.not_eq_false _ ▸ closed)
      unfold NwBufList.packets at all
      rw [none_, List.map_nil, List.append_nil] at all
      refine ⟨⟨?_, ?_, tidy.kept.reported⟩, tidy.small⟩
      · intro _
        change (run.ses.sent ++ [data]) ++ run.ses.writeBuf.bufs.map NwBuf.unread = _
        rw [none_, List.map_nil, List.append_nil, all]
        rfl
      · change run.ses.sent ++ [data] <+: run.given ++ [data]
        exact ⟨[], by rw [List.append_nil, all]⟩
    · rw [waits]
      have wait := tidy.wait small ok unread .readWrite .again
      rw [none_, List.nil_append] at wait
      exact wait
    · rw [failed]
      exact tidy.onError _ msg more
  · rw [if_pos none_]
    rcases sendQueued_packet (T := T) packet room with ⟨msg, failed⟩ | ⟨buf, waits, ok, unread⟩
    · rw [failed]
      exact tidy.onError run.ses.errno msg (Nat.le_succ _)
    · rw [waits]
      exact tidy.wait small ok unread run.ses.watch run.ses.errno

/-- All that waits is sent. -/
theorem SendRun.Tidy.canWrite (packet : T.sockType = .seqpacket) (tidy : run.Tidy)
    {results : List WriteResult} (served : (SendEvent.canWrite results).Served run) :
    (run.step T (.canWrite results)).Tidy := by
  unfold SendRun.step onCanWrite
  simp only
  by_cases opened : run.ses.opened = true
  · rw [if_pos opened]
    obtain ⟨errno, eq⟩ := writeBufs_takes packet _ rfl tidy.small served
    rw [eq]
    have all := tidy.kept.packets opened
    unfold NwBufList.packets at all
    refine ⟨⟨?_, ?_, tidy.kept.reported⟩, fun _ absent => absurd absent List.not_mem_nil⟩
    · intro _
      change (run.ses.sent ++ run.ses.writeBuf.bufs.map NwBuf.unread) ++ [] = _
      rw [List.append_nil, all]
    · change run.ses.sent ++ run.ses.writeBuf.bufs.map NwBuf.unread <+: run.given
      exact ⟨[], by rw [List.append_nil, all]⟩
  · rw [if_neg opened]
    exact tidy

theorem SendRun.Tidy.step (packet : T.sockType = .seqpacket) (tidy : run.Tidy) {event : SendEvent}
    (served : event.Served run) : (run.step T event).Tidy := by
  cases event with
  | send data results => exact tidy.send packet served
  | canWrite results => exact tidy.canWrite packet served

theorem SendRun.Tidy.steps (packet : T.sockType = .seqpacket) (tidy : run.Tidy)
    {events : List SendEvent} (served : run.Served T events) : (run.run T events).Tidy := by
  induction events generalizing run with
  | nil => exact tidy
  | cons event events ih => exact ih (tidy.step packet served.1) served.2

/-- No packet is lost as long as the socket takes those that wait when it can be
written to. -/
theorem packets_kept (packet : T.sockType = .seqpacket) (pool : NwBufPool) (limit : ℕ)
    {events : List SendEvent} (served : (SendRun.start pool limit).Served T events) :
    Kept ((SendRun.start pool limit).run T events) :=
  ((SendRun.tidy_start pool limit).steps packet served).kept

end Run

/-! ## Samples -/

/-- A session for packets, which errors do not close. -/
def packetSes : SendType where
  sockType := .seqpacket
  closes _ := false

/-- Buffers of two bytes. -/
def twoBytes : NwBufPool where
  size := 2
  memory _ := [0, 0]
  size_pos := by decide
  memory_length _ := rfl

/-- A packet waits, another behind it, a third is too large, and the two are sent. -/
theorem packets_kept_small : Kept ((SendRun.start twoBytes 2).run packetSes
    [.send [1] [.failed .interrupted], .send [2, 3] [], .send [4, 5, 6] [],
      .canWrite [.taken 1, .failed .interrupted, .taken 2]]) := by
  apply packets_kept rfl
  refine ⟨⟨by decide, by decide⟩, ⟨by decide, by decide⟩, ⟨by decide, by decide⟩, ?_, trivial⟩
  exact ⟨rfl, trivial⟩

/-- A packet that the socket does not take when it can be written to is gone. -/
theorem packets_not_always_kept : ¬∀ (T : SendType) (pool : NwBufPool) (limit : ℕ)
    (events : List SendEvent), T.sockType = .seqpacket →
      Kept ((SendRun.start pool limit).run T events) := by
  intro always
  have kept := always packetSes twoBytes 2 [.send [1] [.failed .again], .canWrite [.failed .again]]
    rfl
  exact absurd (kept.packets rfl) (by decide)

end ViabtcServer.Network
