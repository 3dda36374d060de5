import ViabtcServer.Network.Send

/-!
# Nothing is lost on a stream

What the socket of a `SOCK_STREAM` session took and what waits for it is all that
was sent, in its order, as long as no error is reported. The number of bytes that
were written passes through an `int`, so this is so up to `2 ^ 31` bytes.
-/

namespace ViabtcServer.Network

open Wire

/-- The bytes of the stream: those the socket took, then those that wait. -/
def SendSes.stream (ses : SendSes) : List Byte :=
  ses.sent.flatten ++ ses.writeBuf.content

/-- No error was reported, and no call of `nw_ses_send` returned -1. -/
def SendRun.Quiet (run : SendRun) : Prop :=
  run.ses.errors = [] ∧ run.refused = 0

/-- The data of a call of `nw_ses_send`. -/
def SendEvent.data? : SendEvent → Option (List Byte)
  | .send data _ => some data
  | .canWrite _ => none

/-- Everything that was sent went to the socket or waits, and the session watches
for the socket exactly while something waits. -/
structure Intact (events : List SendEvent) (run : SendRun) : Prop where
  stream : run.ses.stream = (events.filterMap SendEvent.data?).flatten
  watches : run.ses.watch = .readWrite ↔ run.ses.writeBuf.bufs ≠ []

/-- Data sent with nothing waiting is of a size an `int` can count. -/
def SendEvent.Fits (run : SendRun) : SendEvent → Prop
  | .send data _ => run.ses.writeBuf.bufs = [] → data.length ≤ 2 ^ 31
  | .canWrite _ => True

/-- In each step of a run. -/
def SendRun.Fits (T : SendType) (run : SendRun) : List SendEvent → Prop
  | [] => True
  | event :: events => event.Fits run ∧ (run.step T event).Fits T events

/-! ## What the socket takes -/

theorem writeLoop_spec {size : ℕ} (results : List WriteResult) (errno : Errno) {spos : ℕ}
    (inside : spos ≤ size) : (writeLoop size results errno spos).1 ≤ size := by
  induction results generalizing errno spos with
  | nil =>
      unfold writeLoop
      split <;> exact inside
  | cons result results ih =>
      unfold writeLoop
      by_cases more : spos < size
      · rw [if_pos more]
        cases result with
        | taken n =>
            simp only
            split
            · apply ih
              omega
            · exact inside
        | failed errno =>
            simp only
            split
            · exact ih errno inside
            · exact inside
      · rw [if_neg more]
        exact inside

/-- `nw_write_stream` writes the first `spos` bytes. -/
theorem nwWriteStream_spec (data : List Byte) (results : List WriteResult) (errno : Errno) :
    ∃ spos ≤ data.length, (nwWriteStream data results errno).nwrite = intOfSize spos ∧
      (nwWriteStream data results errno).taken.flatten = data.take spos := by
  have inside := writeLoop_spec results errno (Nat.zero_le data.length)
  exact ⟨_, inside, rfl, List.append_nil _⟩

/-- An `int` counts the bytes of no more than `2 ^ 31`. -/
theorem counts {size spos : ℕ} (small : size ≤ 2 ^ 31) (inside : spos ≤ size) :
    (sizeOfInt (intOfSize spos) < size ∧ spos < size ∧ sizeOfInt (intOfSize spos) = spos) ∨
      (¬sizeOfInt (intOfSize spos) < size ∧ spos = size) := by
  rcases Nat.lt_or_eq_of_le inside with less | eq
  · have same := sizeOfInt_intOfSize (n := spos) (by omega)
    exact Or.inl ⟨by omega, less, same⟩
  · have large := le_sizeOfInt_intOfSize (n := spos) (by omega)
    exact Or.inr ⟨by omega, eq⟩

/-! ## One call -/

section Call

variable {T : SendType} {ses : SendSes}

/-- A session between two calls. -/
structure SendSes.Ready (ses : SendSes) : Prop where
  opened : ses.opened = true
  ok : ses.writeBuf.Ok
  small : ses.writeBuf.pool.size ≤ 2 ^ 31
  watches : ses.watch = .readWrite ↔ ses.writeBuf.bufs ≠ []

/-- Without an error the data is added to the stream. -/
structure Adds (ses : SendSes) (data : List Byte) (ses' : SendSes) : Prop where
  quiet : ses'.errors = ses.errors
  stream : ses'.stream = ses.stream ++ data
  ready : ses'.Ready

/-- What waits first is written. -/
theorem writeBufs_spec (stream : T.sockType = .stream) (bufs : List NwBuf)
    (results : List WriteResult) {ses : SendSes} (waits : ses.writeBuf.bufs = bufs)
    (opened : ses.opened = true) (ok : ses.writeBuf.Ok)
    (small : ses.writeBuf.pool.size ≤ 2 ^ 31)
    (watches : ses.watch = .readWrite ∨ ses.writeBuf.bufs = []) :
    Reports ses (writeBufs T bufs results ses) ∨ Adds ses [] (writeBufs T bufs results ses) := by
  induction bufs generalizing results ses with
  | nil =>
      refine Or.inr ⟨rfl, (List.append_nil _).symm, opened, ok, small, ?_⟩
      change Watch.read = .readWrite ↔ ses.writeBuf.bufs ≠ []
      rw [waits]
      simp
  | cons buf bufs ih =>
      have mem : buf ∈ ses.writeBuf.bufs := waits ▸ List.mem_cons_self
      have okBuf := ok buf mem
      have length : buf.unread.length = nwBufSize buf := okBuf.unread_length
      have bound : nwBufSize buf ≤ 2 ^ 31 := by
        have inside := okBuf.inside
        unfold nwBufSize
        omega
      obtain ⟨spos, inside, nwrite, taken⟩ := nwWriteStream_spec buf.unread results ses.errno
      rw [length] at inside
      have content : ses.writeBuf.content = buf.unread ++ (bufs.map NwBuf.unread).flatten := by
        unfold NwBufList.content
        rw [waits]
        rfl
      have write : T.write buf.unread results ses.errno =
          nwWriteStream buf.unread results ses.errno := by
        unfold SendType.write
        rw [stream]
      have sent : (ses.wrote (nwWriteStream buf.unread results ses.errno)).sent.flatten =
          ses.sent.flatten ++ buf.unread.take spos := by
        rw [← taken]
        exact List.flatten_append
      unfold writeBufs
      simp only [write, nwrite]
      rcases counts bound inside with ⟨less, part, same⟩ | ⟨all, whole⟩
      · rw [if_pos less]
        by_cases again : (nwWriteStream buf.unread results ses.errno).errno = .again
        · -- the rest of the buffer waits
          rw [if_pos again, stream, same]
          obtain ⟨ok', rest⟩ := okBuf.advance (n := spos) (by omega)
          have nonempty : ses.writeBuf.bufs ≠ [] := by
            rw [waits]
            exact List.cons_ne_nil _ _
          refine Or.inr ⟨rfl, ?_, opened, ?_, small, ?_⟩
          · have content' : NwBufList.content
                { ses.writeBuf with bufs := buf.advanced spos :: bufs } =
                  buf.unread.drop spos ++ (bufs.map NwBuf.unread).flatten := by
              rw [← rest]
              rfl
            unfold SendSes.stream
            rw [List.append_nil, content]
            change (ses.wrote _).sent.flatten ++ NwBufList.content
              { ses.writeBuf with bufs := buf.advanced spos :: bufs } = _
            rw [sent, content', List.append_assoc, ← List.append_assoc (buf.unread.take spos),
              List.take_append_drop]
          · intro other there
            rcases List.mem_cons.mp there with rfl | later
            · exact ok'
            · exact ok other (waits ▸ List.mem_cons_of_mem _ later)
          · change ses.watch = .readWrite ↔ buf.advanced spos :: bufs ≠ []
            rcases watches with watches | none_
            · simp [watches]
            · exact absurd none_ nonempty
        · rw [if_neg again]
          exact Or.inl (reports_onError T _ _)
      · -- the buffer is written
        rw [if_neg all]
        have shifted : (nwBufListShift ses.writeBuf).bufs = bufs := by
          unfold nwBufListShift
          rw [waits]
          rfl
        have ok' : (nwBufListShift ses.writeBuf).Ok := fun other there =>
          ok other (List.mem_of_mem_tail there)
        have next := @ih (nwWriteStream buf.unread results ses.errno).results
          ((ses.wrote (nwWriteStream buf.unread results ses.errno)).queue
            (nwBufListShift ses.writeBuf)) shifted opened ok' small ?_
        · rcases next with ⟨msg, reported⟩ | adds
          · exact Or.inl ⟨msg, reported⟩
          · refine Or.inr ⟨adds.quiet, ?_, adds.ready⟩
            have content' : (nwBufListShift ses.writeBuf).content =
                (bufs.map NwBuf.unread).flatten := by
              unfold NwBufList.content
              rw [shifted]
            refine adds.stream.trans ?_
            unfold SendSes.stream
            rw [List.append_nil, List.append_nil, content]
            change (ses.wrote _).sent.flatten ++ (nwBufListShift ses.writeBuf).content = _
            rw [sent, content', whole, ← length, List.take_length, List.append_assoc]
        · rcases watches with watches | none_
          · exact Or.inl watches
          · rw [waits] at none_
            exact absurd none_ (List.cons_ne_nil _ _)

theorem onCanWrite_spec (stream : T.sockType = .stream) (ready : ses.Ready)
    (results : List WriteResult) :
    Reports ses (onCanWrite T ses results) ∨ Adds ses [] (onCanWrite T ses results) := by
  unfold onCanWrite
  rw [if_pos ready.opened]
  apply writeBufs_spec stream _ results rfl ready.opened ready.ok ready.small
  by_cases none_ : ses.writeBuf.bufs = []
  · exact Or.inr none_
  · exact Or.inl (ready.watches.mpr none_)

/-- Data is added behind what waits. -/
theorem sendQueued_spec (stream : T.sockType = .stream) (ready : ses.Ready)
    (some_ : ses.writeBuf.bufs ≠ []) (data : List Byte) :
    (Reports ses (sendQueued T ses data).1 ∧ (sendQueued T ses data).2 = -1) ∨
      (Adds ses data (sendQueued T ses data).1 ∧ (sendQueued T ses data).2 = 0) := by
  have queued := nwBufListWrite_spec ready.ok data
  unfold sendQueued
  rw [stream]
  simp only
  by_cases all : (nwBufListWrite ses.writeBuf data).2 ≠ data.length
  · rw [if_pos all]
    exact Or.inl ⟨reports_onError T _ _, rfl⟩
  · rw [if_neg all]
    have whole := not_not.mp all
    refine Or.inr ⟨⟨rfl, ?_, ready.opened, queued.ok, ?_, ?_⟩, rfl⟩
    · have content := queued.content
      rw [whole, List.take_length] at content
      unfold SendSes.stream SendSes.queue
      rw [content, List.append_assoc]
    · change (nwBufListWrite ses.writeBuf data).1.pool.size ≤ _
      rw [queued.pool]
      exact ready.small
    · change ses.watch = .readWrite ↔ (nwBufListWrite ses.writeBuf data).1.bufs ≠ []
      have now := queued.some (Or.inl some_)
      simp [ready.watches.mpr some_, now]

/-- With nothing waiting the socket comes first, and the rest waits. -/
theorem sendStream_spec (ready : ses.Ready) (none_ : ses.writeBuf.bufs = []) {data : List Byte}
    (fits : data.length ≤ 2 ^ 31) (results : List WriteResult) :
    (Reports ses (sendStream T ses data results).1 ∧ (sendStream T ses data results).2 = -1) ∨
      (Adds ses data (sendStream T ses data results).1 ∧
        (sendStream T ses data results).2 = 0) := by
  obtain ⟨spos, inside, nwrite, taken⟩ := nwWriteStream_spec data results ses.errno
  have sent : (ses.wrote (nwWriteStream data results ses.errno)).sent.flatten =
      ses.sent.flatten ++ data.take spos := by
    rw [← taken]
    exact List.flatten_append
  have content : ses.writeBuf.content = [] := by
    unfold NwBufList.content
    rw [none_]
    rfl
  unfold sendStream
  simp only [nwrite, SendSes.wrote_writeBuf]
  rcases counts fits inside with ⟨less, part, same⟩ | ⟨all, whole⟩
  · rw [if_pos less]
    by_cases again : (nwWriteStream data results ses.errno).errno = .again
    · rw [if_pos again, same]
      have queued := nwBufListWrite_spec ready.ok (data.drop spos)
      by_cases short : (nwBufListWrite ses.writeBuf (data.drop spos)).2 ≠ data.length - spos
      · rw [if_pos short]
        exact Or.inl ⟨reports_onError T _ _, rfl⟩
      · rw [if_neg short]
        have rest := not_not.mp short
        refine Or.inr ⟨⟨rfl, ?_, ready.opened, queued.ok, ?_, ?_⟩, rfl⟩
        · have waits := queued.content
          rw [rest, ← List.length_drop, List.take_length, content, List.nil_append] at waits
          unfold SendSes.stream
          rw [content, List.append_nil]
          change (ses.wrote _).sent.flatten ++
            (nwBufListWrite ses.writeBuf (data.drop spos)).1.content = _
          rw [sent, waits, List.append_assoc, List.take_append_drop]
        · change (nwBufListWrite ses.writeBuf (data.drop spos)).1.pool.size ≤ _
          rw [queued.pool]
          exact ready.small
        · have now := queued.some (Or.inr (by omega))
          exact iff_of_true rfl now
    · rw [if_neg again]
      exact Or.inl ⟨reports_onError T _ _, rfl⟩
  · rw [if_neg all]
    refine Or.inr ⟨⟨rfl, ?_, ready.opened, ready.ok, ready.small, ready.watches⟩, rfl⟩
    unfold SendSes.stream
    change (ses.wrote _).sent.flatten ++ ses.writeBuf.content = _
    rw [sent, content, whole, List.take_length, List.append_nil, List.append_nil]

/-- What a call of `nw_ses_send` does. -/
theorem nwSesSend_spec (stream : T.sockType = .stream) (ready : ses.Ready) {data : List Byte}
    (fits : ses.writeBuf.bufs = [] → data.length ≤ 2 ^ 31) (results : List WriteResult) :
    (Reports ses (nwSesSend T ses data results).1 ∧ (nwSesSend T ses data results).2 = -1) ∨
      (Adds ses data (nwSesSend T ses data results).1 ∧ (nwSesSend T ses data results).2 = 0) := by
  have opened : ses.opened ≠ false := by
    rw [ready.opened]
    decide
  unfold nwSesSend
  rw [if_neg opened]
  by_cases none_ : ses.writeBuf.bufs = []
  · rw [if_neg (not_not_intro none_), stream]
    exact sendStream_spec ready none_ (fits none_) results
  · rw [if_pos none_]
    exact sendQueued_spec stream ready none_ data

end Call

/-! ## Runs -/

section Run

variable {T : SendType} {run : SendRun}

/-- What holds of a quiet run of some events. -/
structure SendRun.Flows (events : List SendEvent) (run : SendRun) : Prop where
  ready : run.ses.Ready
  stream : run.ses.stream = (events.filterMap SendEvent.data?).flatten

theorem SendRun.flows_start (limit : ℕ) {pool : NwBufPool} (small : pool.size ≤ 2 ^ 31) :
    (SendRun.start pool limit).Flows [] := by
  refine ⟨⟨rfl, fun _ absent => absurd absent List.not_mem_nil, small, ?_⟩, rfl⟩
  exact iff_of_false nofun (fun some_ => some_ rfl)

/-- Errors stay reported. -/
theorem SendRun.quiet_of_step {event : SendEvent} (quiet : (run.step T event).Quiet) :
    run.Quiet := by
  obtain ⟨noError, noRefusal⟩ := quiet
  cases event with
  | send data results =>
      have errors := nwSesSend_errors T run.ses data results
      unfold SendRun.step at noError noRefusal
      simp only at noError noRefusal
      split at noError
      · rw [if_pos ‹_›] at noRefusal
        exact ⟨List.prefix_nil.mp (noError ▸ errors), noRefusal⟩
      · rw [if_neg ‹_›] at noRefusal
        exact absurd noRefusal (Nat.succ_ne_zero _)
  | canWrite results =>
      have errors := onCanWrite_errors T run.ses results
      exact ⟨List.prefix_nil.mp (noError ▸ errors), noRefusal⟩

theorem SendRun.quiet_of_run {events : List SendEvent} (quiet : (run.run T events).Quiet) :
    run.Quiet := by
  induction events generalizing run with
  | nil => exact quiet
  | cons event events ih => exact SendRun.quiet_of_step (ih quiet)

/-- One step adds the data that is sent, or the run is no longer quiet. -/
theorem SendRun.step_flows (stream : T.sockType = .stream) {before : List SendEvent}
    (flows : run.Flows before) {event : SendEvent} (fits : event.Fits run)
    (quiet : (run.step T event).Quiet) : (run.step T event).Flows (before ++ [event]) := by
  obtain ⟨noError, noRefusal⟩ := quiet
  have loud {ses' : SendSes} (reports : Reports run.ses ses') : ses'.errors ≠ [] := by
    obtain ⟨msg, eq⟩ := reports
    rw [eq]
    simp
  cases event with
  | send data results =>
      unfold SendRun.step at noError noRefusal ⊢
      simp only at noError noRefusal ⊢
      rcases nwSesSend_spec stream flows.ready fits results with ⟨_, ret⟩ | ⟨adds, ret⟩
      · rw [ret, if_neg (by decide)] at noRefusal
        exact absurd noRefusal (Nat.succ_ne_zero _)
      · rw [ret, if_pos rfl]
        refine ⟨adds.ready, adds.stream.trans ?_⟩
        rw [flows.stream, List.filterMap_append, List.flatten_append]
        exact congrArg (List.append _) (List.append_nil data).symm
  | canWrite results =>
      rcases onCanWrite_spec stream flows.ready results with reports | adds
      · exact absurd noError (loud reports)
      · refine ⟨adds.ready, adds.stream.trans ?_⟩
        rw [flows.stream, List.filterMap_append, List.flatten_append]
        rfl

/-- And so does a run. -/
theorem SendRun.run_flows (stream : T.sockType = .stream) {before events : List SendEvent}
    (flows : run.Flows before) (fits : run.Fits T events) (quiet : (run.run T events).Quiet) :
    (run.run T events).Flows (before ++ events) := by
  induction events generalizing run before with
  | nil =>
      rw [List.append_nil]
      exact flows
  | cons event events ih =>
      have next := SendRun.step_flows stream flows fits.1 (SendRun.quiet_of_run quiet)
      have all := ih next fits.2 quiet
      rwa [List.append_assoc] at all

/-- As long as no error is reported, the bytes the socket took and those that wait
are all that was sent, in its order. -/
theorem stream_intact (stream : T.sockType = .stream) {pool : NwBufPool}
    (small : pool.size ≤ 2 ^ 31) (limit : ℕ) {events : List SendEvent}
    (fits : (SendRun.start pool limit).Fits T events)
    (quiet : ((SendRun.start pool limit).run T events).Quiet) :
    Intact events ((SendRun.start pool limit).run T events) := by
  have flows := SendRun.run_flows stream (SendRun.flows_start limit small) fits quiet
  exact ⟨flows.stream, flows.ready.watches⟩

end Run

/-! ## Samples -/

/-- A session for a stream, which errors do not close. -/
def streamSes : SendType where
  sockType := .stream
  closes _ := false

/-- Buffers of four bytes. -/
def fourBytes : NwBufPool where
  size := 4
  memory _ := [0, 0, 0, 0]
  size_pos := by decide
  memory_length _ := rfl

/-- Bytes that are sent directly, that wait in two buffers, and that are added to
the second when the first is written in part. -/
def streamEvents : List SendEvent :=
  [.send [1, 2, 3, 4, 5, 6, 7] [.taken 2], .canWrite [.failed .interrupted, .taken 3],
    .send [8, 9] [], .canWrite [.taken 4, .taken 1]]

theorem stream_intact_small :
    Intact streamEvents ((SendRun.start fourBytes 0).run streamSes streamEvents) := by
  apply stream_intact rfl (by decide)
  · refine ⟨fun _ => by decide, trivial, fun _ => by decide, trivial, trivial⟩
  · unfold SendRun.Quiet
    decide +kernel

/-- The socket takes `2 ^ 31` bytes, which as an `int` are a negative number, and
that as a size is larger than any. -/
theorem sendStream_overflow {ses : SendSes} {data : List Byte}
    (length : data.length = 2 ^ 31 + 1) :
    sendStream streamSes ses data [.taken (2 ^ 31 - 1), .taken 1] =
      ({ ses with errno := .again, sent := ses.sent ++ [data.take (2 ^ 31)] }, 0) := by
  have loop : writeLoop (2 ^ 31 + 1) [.taken (2 ^ 31 - 1), .taken 1] ses.errno 0 =
      (2 ^ 31, .again, []) := rfl
  have large : ¬sizeOfInt (intOfSize (2 ^ 31)) < 2 ^ 31 + 1 := by decide
  unfold sendStream nwWriteStream
  rw [length, loop]
  exact if_neg large

/-- One byte is neither sent nor kept. -/
theorem run_overflow {data : List Byte} (length : data.length = 2 ^ 31 + 1) :
    (SendRun.start fourBytes 0).run streamSes [.send data [.taken (2 ^ 31 - 1), .taken 1]] =
      { ses :=
          { SendSes.start fourBytes 0 with errno := .again, sent := [data.take (2 ^ 31)] }
        given := [data]
        refused := 0 } := by
  have sent : nwSesSend streamSes (SendSes.start fourBytes 0) data
      [.taken (2 ^ 31 - 1), .taken 1] = _ :=
    sendStream_overflow length
  unfold SendRun.run
  rw [List.foldl_cons, List.foldl_nil]
  unfold SendRun.step SendRun.start
  simp only
  rw [sent]
  rfl

/-- Of more bytes than an `int` counts some may be lost without an error. -/
theorem stream_not_always_intact : ¬∀ (T : SendType) (pool : NwBufPool) (limit : ℕ)
    (events : List SendEvent), T.sockType = .stream →
      ((SendRun.start pool limit).run T events).Quiet →
        Intact events ((SendRun.start pool limit).run T events) := by
  intro always
  obtain ⟨data, length⟩ : ∃ data : List Byte, data.length = 2 ^ 31 + 1 :=
    ⟨List.replicate (2 ^ 31 + 1) 0, List.length_replicate⟩
  have run := run_overflow length
  have intact := always streamSes fourBytes 0 _ rfl (by rw [run]; exact ⟨rfl, rfl⟩)
  have stream := congrArg List.length intact.stream
  rw [run] at stream
  unfold SendSes.stream at stream
  simp only [List.flatten_cons, List.flatten_nil, List.append_nil, List.filterMap_cons,
    List.filterMap_nil, SendEvent.data?, NwBufList.content, SendSes.start, List.map_nil,
    List.length_take, length] at stream
  exact absurd stream (by decide)

end ViabtcServer.Network
