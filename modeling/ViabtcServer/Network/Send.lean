import ViabtcServer.Network.Buffer
import ViabtcServer.Wire.Cast

/-!
# Sending

`nw_ses_send` and `on_can_write` of `nw_ses.c`, and the list of buffers of
`nw_buf.c` in which what the socket does not take waits. What the socket does is
given, call by call.
-/

namespace ViabtcServer.Network

open Wire

/-! ## Lists of buffers -/

/-- `nw_buf_pool`: the size of its buffers, and what is in the memory of the next. -/
structure NwBufPool where
  size : ℕ
  memory : List NwBuf → List Byte
  size_pos : 0 < size
  memory_length : ∀ bufs, (memory bufs).length = size

/-- `nw_buf_list`, from its head to its tail. -/
structure NwBufList where
  pool : NwBufPool
  limit : ℕ
  bufs : List NwBuf

namespace NwBufList

/-- `nw_buf_alloc`. -/
def alloc (list : NwBufList) : NwBuf where
  data := list.pool.memory list.bufs
  rpos := 0
  wpos := 0

/-- `limit` buffers are in the list, if there is a limit. -/
def Full (list : NwBufList) : Prop :=
  list.limit ≠ 0 ∧ list.limit ≤ list.bufs.length

instance (list : NwBufList) : Decidable list.Full :=
  inferInstanceAs (Decidable (_ ∧ _))

/-- The bytes that wait, from each buffer's `rpos`. -/
def content (list : NwBufList) : List Byte :=
  (list.bufs.map NwBuf.unread).flatten

end NwBufList

/-- `nw_buf_write`; gives how many bytes it wrote. -/
def nwBufWrite (buf : NwBuf) (data : List Byte) : NwBuf × ℕ :=
  let available := nwBufAvail buf
  let wlen := if available < data.length then available else data.length
  (buf.filled (data.take wlen), wlen)

theorem nwBufWrite_snd (buf : NwBuf) (data : List Byte) :
    (nwBufWrite buf data).2 = min (nwBufAvail buf) data.length := by
  unfold nwBufWrite
  simp only
  split <;> omega

theorem NwBufList.avail_alloc (list : NwBufList) : nwBufAvail list.alloc = list.pool.size := by
  unfold nwBufAvail NwBufList.alloc
  rw [list.pool.memory_length, Nat.sub_zero]

/-- The loop of `nw_buf_list_write`, as long as something is left; gives how many
bytes it wrote. -/
def nwBufListGrow (list : NwBufList) (data : List Byte) : NwBufList × ℕ :=
  if data = [] then (list, 0)
  else if list.Full then (list, 0)
  else
    let buf := nwBufWrite list.alloc data
    let grown := nwBufListGrow { list with bufs := list.bufs ++ [buf.1] } (data.drop buf.2)
    (grown.1, buf.2 + grown.2)
termination_by data.length
decreasing_by
  have some_ := List.length_pos_iff.mpr ‹data ≠ []›
  have size := list.pool.size_pos
  rw [List.length_drop, nwBufWrite_snd, list.avail_alloc]
  omega

/-- `nw_buf_list_write`: fill the last buffer, then take others. -/
def nwBufListWrite (list : NwBufList) (data : List Byte) : NwBufList × ℕ :=
  match list.bufs.getLast? with
  | none => nwBufListGrow list data
  | some tail =>
      if nwBufAvail tail = 0 then nwBufListGrow list data
      else
        let buf := nwBufWrite tail data
        let grown :=
          nwBufListGrow { list with bufs := list.bufs.dropLast ++ [buf.1] } (data.drop buf.2)
        (grown.1, buf.2 + grown.2)

/-- `nw_buf_list_append`: a buffer for all of the data, or nothing. -/
def nwBufListAppend (list : NwBufList) (data : List Byte) : NwBufList × ℕ :=
  if list.Full then (list, 0)
  else if list.pool.size < data.length then (list, 0)
  else
    let buf := nwBufWrite list.alloc data
    ({ list with bufs := list.bufs ++ [buf.1] }, data.length)

/-- `nw_buf_list_shift`. -/
def nwBufListShift (list : NwBufList) : NwBufList :=
  { list with bufs := list.bufs.tail }

/-! ### What the lists hold -/

section Lists

variable {list : NwBufList} {data : List Byte} {size : ℕ} {buf : NwBuf}

/-- The positions of all buffers are in order. -/
def NwBufList.Ok (list : NwBufList) : Prop :=
  ∀ buf ∈ list.bufs, buf.Ok list.pool.size

theorem NwBufList.alloc_ok (list : NwBufList) : list.alloc.Ok list.pool.size :=
  ⟨le_rfl, Nat.zero_le _, list.pool.memory_length _⟩

theorem NwBufList.alloc_unread (list : NwBufList) : list.alloc.unread = [] :=
  rfl

theorem nwBufWrite_spec (ok : buf.Ok size) (data : List Byte) :
    (nwBufWrite buf data).1.Ok size ∧
      (nwBufWrite buf data).1.unread = buf.unread ++ data.take (nwBufWrite buf data).2 := by
  have wlen := nwBufWrite_snd buf data
  have taken : (data.take (nwBufWrite buf data).2).length = (nwBufWrite buf data).2 := by
    rw [List.length_take]
    omega
  have inside := ok.inside
  have room : buf.wpos + (data.take (nwBufWrite buf data).2).length ≤ size := by
    rw [taken, wlen]
    unfold nwBufAvail
    rw [ok.length]
    omega
  exact ok.fill room

/-- The first `n` bytes of the data are added to what waits. -/
structure Queued (list : NwBufList) (data : List Byte) (list' : NwBufList) (n : ℕ) : Prop where
  ok : list'.Ok
  pool : list'.pool = list.pool
  limit : list'.limit = list.limit
  written : n ≤ data.length
  content : list'.content = list.content ++ data.take n
  some : list.bufs ≠ [] ∨ 0 < n → list'.bufs ≠ []

theorem Queued.nothing (ok : list.Ok) (data : List Byte) : Queued list data list 0 := by
  refine ⟨ok, rfl, rfl, Nat.zero_le _, ?_, ?_⟩
  · rw [List.take_zero, List.append_nil]
  · rintro (some_ | none_)
    · exact some_
    · exact absurd none_ (lt_irrefl 0)

/-- Write the first bytes, then the others. -/
theorem Queued.trans {between list' : NwBufList} {n m : ℕ} (first : Queued list data between n)
    (then_ : Queued between (data.drop n) list' m) (some_ : between.bufs ≠ []) :
    Queued list data list' (n + m) := by
  have written := then_.written
  have taken := first.written
  rw [List.length_drop] at written
  refine ⟨then_.ok, then_.pool.trans first.pool, then_.limit.trans first.limit, by omega, ?_,
    fun _ => then_.some (Or.inl some_)⟩
  rw [then_.content, first.content, List.append_assoc, List.take_add]

/-- A buffer is filled and put in the place of another or behind all. -/
theorem Queued.fill {bufs : List NwBuf} (ok : ∀ other ∈ bufs, other.Ok list.pool.size)
    (ok' : buf.Ok list.pool.size)
    (content : list.content = (bufs.map NwBuf.unread).flatten ++ buf.unread) (data : List Byte) :
    Queued list data { list with bufs := bufs ++ [(nwBufWrite buf data).1] }
      (nwBufWrite buf data).2 := by
  obtain ⟨filled, unread⟩ := nwBufWrite_spec ok' data
  have wlen := nwBufWrite_snd buf data
  refine ⟨?_, rfl, rfl, by omega, ?_, ?_⟩
  · intro other mem
    rcases List.mem_append.mp mem with old | new
    · exact ok other old
    · rw [List.mem_singleton.mp new]
      exact filled
  · rw [content]
    unfold NwBufList.content
    simp [unread]
  · intro _
    simp

theorem nwBufListGrow_spec (ok : list.Ok) (data : List Byte) :
    Queued list data (nwBufListGrow list data).1 (nwBufListGrow list data).2 := by
  induction list, data using nwBufListGrow.induct with
  | case1 list =>
      unfold nwBufListGrow
      exact Queued.nothing ok []
  | case2 list data some_ full =>
      unfold nwBufListGrow
      rw [if_neg some_, if_pos full]
      exact Queued.nothing ok data
  | case3 list data some_ room buf ih =>
      have content : list.content = (list.bufs.map NwBuf.unread).flatten ++ list.alloc.unread := by
        rw [list.alloc_unread, List.append_nil]
        rfl
      have first := Queued.fill ok list.alloc_ok content data
      unfold nwBufListGrow
      rw [if_neg some_, if_neg room]
      exact first.trans (ih first.ok) (by simp)

theorem nwBufListWrite_spec (ok : list.Ok) (data : List Byte) :
    Queued list data (nwBufListWrite list data).1 (nwBufListWrite list data).2 := by
  unfold nwBufListWrite
  cases last : list.bufs.getLast? with
  | none => exact nwBufListGrow_spec ok data
  | some tail =>
      simp only
      by_cases full : nwBufAvail tail = 0
      · rw [if_pos full]
        exact nwBufListGrow_spec ok data
      · rw [if_neg full]
        have split : list.bufs = list.bufs.dropLast ++ [tail] :=
          (List.dropLast_append_getLast? tail last).symm
        have mem : tail ∈ list.bufs := List.mem_of_getLast? last
        have content : list.content =
            (list.bufs.dropLast.map NwBuf.unread).flatten ++ tail.unread := by
          unfold NwBufList.content
          conv_lhs => rw [split]
          simp
        have first := Queued.fill (fun other old => ok other (list.bufs.dropLast_subset old))
          (ok tail mem) content data
        exact first.trans (nwBufListGrow_spec first.ok _) (by simp)

/-- A packet gets a buffer of its own, or is not taken. -/
theorem nwBufListAppend_spec (list : NwBufList) (data : List Byte) :
    (nwBufListAppend list data = (list, 0) ∧ (data = [] → list.Full)) ∨
      ∃ buf, nwBufListAppend list data = ({ list with bufs := list.bufs ++ [buf] }, data.length) ∧
        buf.Ok list.pool.size ∧ buf.unread = data := by
  unfold nwBufListAppend
  by_cases full : list.Full
  · exact Or.inl ⟨if_pos full, fun _ => full⟩
  rw [if_neg full]
  by_cases large : list.pool.size < data.length
  · refine Or.inl ⟨if_pos large, fun empty => ?_⟩
    rw [empty] at large
    exact absurd large (Nat.not_lt_zero _)
  rw [if_neg large]
  obtain ⟨filled, unread⟩ := nwBufWrite_spec list.alloc_ok data
  refine Or.inr ⟨_, rfl, filled, ?_⟩
  rw [unread, list.alloc_unread, List.nil_append, nwBufWrite_snd, list.avail_alloc,
    Nat.min_eq_right (by omega), List.take_length]

end Lists

/-! ## The socket -/

/-- `errno` after a call that failed. -/
inductive Errno
  /-- `EAGAIN`. -/
  | again
  /-- `EINTR`. -/
  | interrupted
  | other (text : String)
  deriving DecidableEq

/-- `strerror`. -/
def Errno.text : Errno → String
  | .again => "Resource temporarily unavailable"
  | .interrupted => "Interrupted system call"
  | .other text => text

/-- What a call of `write` or `sendmsg` does. -/
inductive WriteResult
  /-- It takes `n` bytes, or as many as there are; a packet it takes whole. -/
  | taken (n : ℕ)
  | failed (errno : Errno)

/-- The most bytes a call of `write` takes: what it returns fits an `int`. -/
def writeMax : ℕ := 2 ^ 31 - 1

/-- What is left after `nw_write_stream` or `nw_write_packet`: what they return,
`errno`, what the socket took, and what it will do at the next calls. `whole` is a
ghost: whether all of the data was taken. -/
structure Written where
  nwrite : ℤ
  errno : Errno
  taken : List (List Byte)
  results : List WriteResult
  whole : Bool

/-- The loop of `nw_write_stream`, at `spos`. After the last result `write` fails
with `EAGAIN`. -/
def writeLoop (size : ℕ) : List WriteResult → Errno → ℕ → ℕ × Errno × List WriteResult
  | [], errno, spos => if spos < size then (spos, .again, []) else (spos, errno, [])
  | result :: results, errno, spos =>
      if spos < size then
        match result with
        | .taken n =>
            let ret := min n (min (size - spos) writeMax)
            if 0 < ret then writeLoop size results errno (spos + ret) else (spos, errno, results)
        | .failed errno =>
            if errno = .interrupted then writeLoop size results errno spos
            else (spos, errno, results)
      else (spos, errno, result :: results)

/-- `nw_write_stream`. -/
def nwWriteStream (data : List Byte) (results : List WriteResult) (errno : Errno) : Written :=
  let (spos, errno, results) := writeLoop data.length results errno 0
  { nwrite := intOfSize spos
    errno := errno
    taken := [data.take spos]
    results := results
    whole := data.length ≤ spos }

/-- `nw_write_packet`. After the last result `sendmsg` fails with `EAGAIN`. -/
def nwWritePacket (data : List Byte) : List WriteResult → Errno → Written
  | [], _ => ⟨-1, .again, [], [], false⟩
  | .taken _ :: results, errno =>
      let ret := intOfSize data.length
      if ret < 0 ∧ errno = .interrupted then
        let written := nwWritePacket data results errno
        { written with taken := data :: written.taken }
      else ⟨ret, errno, [data], results, true⟩
  | .failed errno :: results, _ =>
      if errno = .interrupted then nwWritePacket data results errno
      else ⟨-1, errno, [], results, false⟩

/-! ## Sessions that send -/

inductive SockType
  | stream
  | seqpacket
  deriving DecidableEq

/-- The events a session watches for. -/
inductive Watch
  | stopped
  | read
  | readWrite
  deriving DecidableEq

/-- What a session is given: its socket's type, and whether `on_error` closes it
after the messages so far. -/
structure SendType where
  sockType : SockType
  closes : List String → Bool

/-- What `nw_ses` needs to send. `sent` is what the socket took, `errors` are the
messages `on_error` was called with, and `faults` counts how often the socket did not
take all of the data for another reason than `EAGAIN`. -/
structure SendSes where
  opened : Bool
  watch : Watch
  writeBuf : NwBufList
  errno : Errno
  sent : List (List Byte)
  errors : List String
  faults : ℕ

/-- A session that was started, with nothing to send. -/
def SendSes.start (pool : NwBufPool) (limit : ℕ) : SendSes where
  opened := true
  watch := .read
  writeBuf := ⟨pool, limit, []⟩
  errno := .other "Success"
  sent := []
  errors := []
  faults := 0

section Send

variable (T : SendType)

/-- `nw_write_stream` or `nw_write_packet`. -/
def SendType.write (data : List Byte) (results : List WriteResult) (errno : Errno) : Written :=
  match T.sockType with
  | .stream => nwWriteStream data results errno
  | .seqpacket => nwWritePacket data results errno

/-- What a call of `write` or `sendmsg` leaves in the session. -/
def SendSes.wrote (ses : SendSes) (written : Written) : SendSes :=
  { ses with
    errno := written.errno
    sent := ses.sent ++ written.taken
    faults :=
      if written.whole = false ∧ written.errno ≠ .again then ses.faults + 1 else ses.faults }

@[simp]
theorem SendSes.wrote_writeBuf (ses : SendSes) (written : Written) :
    (ses.wrote written).writeBuf = ses.writeBuf := rfl

/-- The session with other buffers in `write_buf`. -/
def SendSes.queue (ses : SendSes) (list : NwBufList) : SendSes :=
  { ses with writeBuf := list }

/-- `nw_ses_close`. -/
def nwSesClose (ses : SendSes) : SendSes :=
  { ses with
    opened := false
    watch := .stopped
    writeBuf := { ses.writeBuf with bufs := [] } }

/-- `on_error`, which may close the session. -/
def SendSes.onError (ses : SendSes) (msg : String) : SendSes :=
  let ses := { ses with errors := ses.errors ++ [msg] }
  if T.closes ses.errors then nwSesClose ses else ses

/-- The loop of `on_can_write` over the buffers of `write_buf`, and the end of it. -/
def writeBufs : List NwBuf → List WriteResult → SendSes → SendSes
  | [], _, ses => { ses with watch := .read }
  | buf :: bufs, results, ses =>
      let size := nwBufSize buf
      let written := T.write buf.unread results ses.errno
      let nwrite := sizeOfInt written.nwrite
      let ses := ses.wrote written
      if nwrite < size then
        if written.errno = .again then
          match T.sockType with
          | .stream =>
              ses.queue { ses.writeBuf with bufs := buf.advanced nwrite :: bufs }
          | .seqpacket => ses
        else ses.onError T s!"write error: {written.errno.text}"
      else writeBufs bufs written.results (ses.queue (nwBufListShift ses.writeBuf))

/-- `on_can_write`. -/
def onCanWrite (ses : SendSes) (results : List WriteResult) : SendSes :=
  if ses.opened then writeBufs T ses.writeBuf.bufs results ses else ses

/-- `nw_ses_send` while something waits in `write_buf`. -/
def sendQueued (ses : SendSes) (data : List Byte) : SendSes × ℤ :=
  let (list, nwrite) :=
    match T.sockType with
    | .stream => nwBufListWrite ses.writeBuf data
    | .seqpacket => nwBufListAppend ses.writeBuf data
  let ses := ses.queue list
  if nwrite ≠ data.length then (ses.onError T "no send buf", -1) else (ses, 0)

/-- `nw_ses_send` for `SOCK_STREAM` with nothing in `write_buf`. -/
def sendStream (ses : SendSes) (data : List Byte) (results : List WriteResult) : SendSes × ℤ :=
  let written := nwWriteStream data results ses.errno
  let nwrite := sizeOfInt written.nwrite
  let ses := ses.wrote written
  if nwrite < data.length then
    if written.errno = .again then
      let (list, ret) := nwBufListWrite ses.writeBuf (data.drop nwrite)
      let ses := ses.queue list
      if ret ≠ data.length - nwrite then (ses.onError T "no send buf", -1)
      else ({ ses with watch := .readWrite }, 0)
    else (ses.onError T s!"write error: {written.errno.text}", -1)
  else (ses, 0)

/-- `nw_ses_send` for `SOCK_SEQPACKET` with nothing in `write_buf`. -/
def sendPacket (ses : SendSes) (data : List Byte) (results : List WriteResult) : SendSes × ℤ :=
  let written := nwWritePacket data results ses.errno
  let ses := ses.wrote written
  if written.nwrite < 0 then
    if written.errno = .again then
      let (list, ret) := nwBufListAppend ses.writeBuf data
      let ses := ses.queue list
      if ret ≠ data.length then (ses.onError T "on send buf", -1)
      else ({ ses with watch := .readWrite }, 0)
    else (ses.onError T s!"sendmsg error: {written.errno.text}", -1)
  else (ses, 0)

/-- `nw_ses_send`. -/
def nwSesSend (ses : SendSes) (data : List Byte) (results : List WriteResult) : SendSes × ℤ :=
  if ses.opened = false then (ses, -1)
  else if ses.writeBuf.bufs ≠ [] then sendQueued T ses data
  else
    match T.sockType with
    | .stream => sendStream T ses data results
    | .seqpacket => sendPacket T ses data results

/-! ## Errors -/

/-- An error is reported. -/
def Reports (ses ses' : SendSes) : Prop :=
  ∃ msg, ses'.errors = ses.errors ++ [msg]

theorem reports_onError (ses : SendSes) (msg : String) : Reports ses (ses.onError T msg) := by
  unfold SendSes.onError
  simp only
  split <;> exact ⟨msg, rfl⟩

theorem onError_errors (ses : SendSes) (msg : String) :
    ses.errors <+: (ses.onError T msg).errors := by
  obtain ⟨msg', eq⟩ := reports_onError T ses msg
  exact ⟨[msg'], eq.symm⟩

theorem writeBufs_errors (bufs : List NwBuf) (results : List WriteResult) (ses : SendSes) :
    ses.errors <+: (writeBufs T bufs results ses).errors := by
  induction bufs generalizing results ses with
  | nil => exact List.prefix_rfl
  | cons buf bufs ih =>
      unfold writeBufs
      simp only
      split
      · split
        · split <;> exact List.prefix_rfl
        · exact onError_errors T (ses.wrote _) _
      · exact ih _ ((ses.wrote _).queue _)

theorem onCanWrite_errors (ses : SendSes) (results : List WriteResult) :
    ses.errors <+: (onCanWrite T ses results).errors := by
  unfold onCanWrite
  split
  · exact writeBufs_errors T _ results ses
  · exact List.prefix_rfl

theorem nwSesSend_errors (ses : SendSes) (data : List Byte) (results : List WriteResult) :
    ses.errors <+: (nwSesSend T ses data results).1.errors := by
  unfold nwSesSend
  split
  · exact List.prefix_rfl
  split
  · unfold sendQueued
    simp only
    cases T.sockType with
    | stream =>
        simp only
        split
        · exact onError_errors T (ses.queue (nwBufListWrite ses.writeBuf data).1) _
        · exact List.prefix_rfl
    | seqpacket =>
        simp only
        split
        · exact onError_errors T (ses.queue (nwBufListAppend ses.writeBuf data).1) _
        · exact List.prefix_rfl
  split
  · unfold sendStream
    simp only
    split
    · split
      · split
        · exact onError_errors T ((ses.wrote _).queue _) _
        · exact List.prefix_rfl
      · exact onError_errors T (ses.wrote _) _
    · exact List.prefix_rfl
  · unfold sendPacket
    simp only
    split
    · split
      · split
        · exact onError_errors T ((ses.wrote _).queue _) _
        · exact List.prefix_rfl
      · exact onError_errors T (ses.wrote _) _
    · exact List.prefix_rfl

/-! ## Runs -/

/-- What happens to a session, and what the socket does at the calls it leads to. -/
inductive SendEvent
  /-- `nw_ses_send`. -/
  | send (data : List Byte) (results : List WriteResult)
  /-- The socket can be written to. -/
  | canWrite (results : List WriteResult)

/-- A session and what became of the calls of `nw_ses_send`: the data of those
that returned 0, and how many returned -1. -/
structure SendRun where
  ses : SendSes
  given : List (List Byte)
  refused : ℕ

def SendRun.start (pool : NwBufPool) (limit : ℕ) : SendRun where
  ses := .start pool limit
  given := []
  refused := 0

def SendRun.step (run : SendRun) : SendEvent → SendRun
  | .send data results =>
      let (ses, ret) := nwSesSend T run.ses data results
      if ret = 0 then { run with ses := ses, given := run.given ++ [data] }
      else { run with ses := ses, refused := run.refused + 1 }
  | .canWrite results => { run with ses := onCanWrite T run.ses results }

def SendRun.run (run : SendRun) (events : List SendEvent) : SendRun :=
  events.foldl (SendRun.step T) run

end Send

end ViabtcServer.Network
