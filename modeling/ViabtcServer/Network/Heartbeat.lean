import ViabtcServer.Network.Rpc
import ViabtcServer.Wire.Pack
import Mathlib.Data.List.Induction
import Mathlib.Data.Rat.Defs
import Mathlib.Algebra.Order.Ring.Rat

/-!
# Heartbeats

`on_heartbeat` of `ut_rpc_svr.c`. The body of a heartbeat is a sequence of
records, each with a type and the length of its value. The helper that reads the
two numbers of 16 bits asks for 32 bits, and so the last record is refused where
its value has fewer than two bytes.
-/

namespace ViabtcServer.Network

open Wire

/-- `RPC_HEARTBEAT_TYPE_TIMEOUT`. -/
def rpcHeartbeatTypeTimeout : ℕ := 1

/-- `RPC_HEARTBEAT_TIMEOUT_MIN`. -/
def rpcHeartbeatTimeoutMin : ℚ := 2

/-- `RPC_HEARTBEAT_TIMEOUT_MAX`. -/
def rpcHeartbeatTimeoutMax : ℚ := 600

/-- `RPC_PKG_TYPE_REPLY`. -/
def rpcPkgTypeReply : Word 2 := 1

/-- `struct clt_info`. Times are in seconds. -/
structure CltInfo where
  lastHeartbeat : ℚ
  heartbeatTimeout : ℚ
  deriving DecidableEq

/-- What a TIMEOUT record sets, from its milliseconds. -/
def clampTimeout (value : ℕ) : ℚ :=
  let timeout : ℚ := value / 1000
  if timeout > rpcHeartbeatTimeoutMax then rpcHeartbeatTimeoutMax
  else if timeout < rpcHeartbeatTimeoutMin then rpcHeartbeatTimeoutMin
  else timeout

/-- What the loop over a body comes to: its result, the timeout then set, and where in the body
it read how many bytes. -/
structure HeartbeatRun where
  ret : ℤ
  timeout : ℚ
  reads : List (ℕ × ℕ)
  deriving DecidableEq

theorem unpackUint16Le_shorter {src : List Byte} {old : ℕ}
    (read : ¬ (unpackUint16Le src old).ret < 0) :
    (unpackUint16Le src old).src.length + 2 = src.length := by
  have length := congrArg List.length (unpackUint16Le_read read).2.1
  rw [List.length_append, bytesOf_length] at length
  omega

/-- The loop of `on_heartbeat` over what is left of a body of `size` bytes. -/
def heartbeatLoop (size : ℕ) (src : List Byte) (timeout : ℚ) (reads : List (ℕ × ℕ)) :
    HeartbeatRun :=
  if src.length = 0 then ⟨0, timeout, reads⟩
  else
    let type := unpackUint16Le src 0
    if type.ret < 0 then ⟨-34, timeout, reads⟩
    else
      let reads := reads ++ [(size - src.length, 2)]
      let len := unpackUint16Le type.src 0
      if len.ret < 0 then ⟨-35, timeout, reads⟩
      else
        let reads := reads ++ [(size - type.src.length, 2)]
        if len.src.length < len.out then ⟨-37, timeout, reads⟩
        else if type.out = rpcHeartbeatTypeTimeout then
          if len.out ≠ 4 then ⟨-42, timeout, reads⟩
          else
            heartbeatLoop size (len.src.drop len.out) (clampTimeout (valueOf (slice len.src 0 4)))
              (reads ++ [(size - len.src.length, 4)])
        else heartbeatLoop size (len.src.drop len.out) timeout reads
termination_by src.length
decreasing_by
  all_goals
    have first := unpackUint16Le_shorter ‹¬ (unpackUint16Le src 0).ret < 0›
    have second := unpackUint16Le_shorter
      ‹¬ (unpackUint16Le (unpackUint16Le src 0).src 0).ret < 0›
    rw [List.length_drop]
    omega

/-- What `on_heartbeat` returns, the client as it leaves it, the reply it sends, and what of the
body it read. -/
structure HeartbeatResult where
  ret : ℤ
  info : CltInfo
  reply : Option RpcHead
  reads : List (ℕ × ℕ)

/-- `on_heartbeat` at the time `now`. -/
def onHeartbeat (now : ℚ) (info : CltInfo) (pkg : RpcHead) (body : List Byte) :
    HeartbeatResult :=
  let run := heartbeatLoop body.length body info.heartbeatTimeout []
  { ret := run.ret
    info := { lastHeartbeat := now, heartbeatTimeout := run.timeout }
    reply := if run.ret = 0 then some { pkg with pkgType := rpcPkgTypeReply, bodySize := 0 }
      else none
    reads := run.reads }

/-! ## Records -/

/-- A record of a heartbeat. -/
structure HeartbeatRecord where
  type : ℕ
  value : List Byte
  type_lt : type < 2 ^ 16
  length_lt : value.length < 2 ^ 16

namespace HeartbeatRecord

/-- The bytes of a record. -/
def image (record : HeartbeatRecord) : List Byte :=
  bytesOf 2 record.type ++ (bytesOf 2 record.value.length ++ record.value)

theorem image_length (record : HeartbeatRecord) :
    record.image.length = 4 + record.value.length := by
  unfold image
  rw [List.length_append, List.length_append, bytesOf_length, bytesOf_length]
  omega

/-- A timeout has four bytes. -/
def Timed (record : HeartbeatRecord) : Prop :=
  record.type = rpcHeartbeatTypeTimeout → record.value.length = 4

/-- The timeout after a record. -/
def timeout (record : HeartbeatRecord) (old : ℚ) : ℚ :=
  if record.type = rpcHeartbeatTypeTimeout then clampTimeout (valueOf record.value) else old

end HeartbeatRecord

open HeartbeatRecord

/-- The body is a sequence of complete records, and all timeouts have four bytes. -/
structure Complete (body : List Byte) (records : List HeartbeatRecord) : Prop where
  image : body = records.flatMap HeartbeatRecord.image
  timed : ∀ record ∈ records, record.Timed

/-- The last record is as long as the helper asks. -/
def EndsLong (records : List HeartbeatRecord) : Prop :=
  ∀ last ∈ records.getLast?, 2 ≤ last.value.length

/-- The value of the last timeout between the bounds, or the timeout as it was. -/
def lastTimeout (records : List HeartbeatRecord) (old : ℚ) : ℚ :=
  match (records.filter fun record => record.type = rpcHeartbeatTypeTimeout).getLast? with
  | some record =>
      max rpcHeartbeatTimeoutMin (min rpcHeartbeatTimeoutMax (valueOf record.value / 1000))
  | none => old

theorem clampTimeout_eq (value : ℕ) : clampTimeout value =
    max rpcHeartbeatTimeoutMin (min rpcHeartbeatTimeoutMax (value / 1000)) := by
  have ordered : rpcHeartbeatTimeoutMin ≤ rpcHeartbeatTimeoutMax := by decide
  unfold clampTimeout
  simp only
  split_ifs with large small
  · rw [min_eq_left (le_of_lt large), max_eq_right ordered]
  · rw [min_eq_right (le_of_lt (lt_of_lt_of_le small ordered)), max_eq_left (le_of_lt small)]
  · rw [min_eq_right (not_lt.mp large), max_eq_right (not_lt.mp small)]

/-- The loop sets one timeout after the other. -/
theorem lastTimeout_eq_foldl (records : List HeartbeatRecord) (old : ℚ) :
    lastTimeout records old = records.foldl (fun old record => record.timeout old) old := by
  induction records using List.reverseRecOn with
  | nil => rfl
  | append_singleton records record ih =>
      rw [List.foldl_append, List.foldl_cons, List.foldl_nil, ← ih]
      unfold lastTimeout HeartbeatRecord.timeout
      rw [List.filter_append, List.filter_singleton]
      by_cases timed : record.type = rpcHeartbeatTypeTimeout
      · rw [decide_eq_true timed, cond_true, List.getLast?_concat, if_pos timed, clampTimeout_eq]
      · rw [decide_eq_false timed, cond_false, List.append_nil, if_neg timed]

/-! ## Steps of the loop -/

section Steps

variable {size : ℕ} {timeout : ℚ} {reads : List (ℕ × ℕ)}

/-- A record that is not too close to the end is taken. -/
theorem heartbeatLoop_record {record : HeartbeatRecord} (timed : record.Timed) {rest : List Byte}
    (enough : 2 ≤ record.value.length + rest.length) :
    ∃ more, heartbeatLoop size (record.image ++ rest) timeout reads =
      heartbeatLoop size rest (record.timeout timeout) (reads ++ more) := by
  have type : unpackUint16Le (record.image ++ rest) 0 =
      ⟨2, bytesOf 2 record.value.length ++ (record.value ++ rest), record.type⟩ := by
    unfold image
    rw [List.append_assoc, List.append_assoc]
    apply unpackUint16Le_bytes record.type_lt
    rw [List.length_append, bytesOf_length]
    omega
  have len : unpackUint16Le (bytesOf 2 record.value.length ++ (record.value ++ rest)) 0 =
      ⟨2, record.value ++ rest, record.value.length⟩ := by
    apply unpackUint16Le_bytes record.length_lt
    rw [List.length_append]
    omega
  have some : ¬ (record.image ++ rest).length = 0 := by
    rw [List.length_append, image_length]
    omega
  have inside : ¬ (record.value ++ rest).length < record.value.length := by
    rw [List.length_append]
    omega
  have read : ¬ (2 : ℤ) < 0 := by decide
  rw [heartbeatLoop, if_neg some]
  simp only [type, len, List.drop_left, if_neg inside, read, if_false]
  unfold HeartbeatRecord.timeout
  by_cases set : record.type = rpcHeartbeatTypeTimeout
  · have value : slice (record.value ++ rest) 0 4 = record.value := slice_append_head (timed set)
    rw [if_pos set, if_pos set, if_neg (not_not.mpr (timed set)), value, List.append_assoc,
      List.append_assoc]
    exact ⟨_, rfl⟩
  · rw [if_neg set, if_neg set, List.append_assoc]
    exact ⟨_, rfl⟩

/-- One that is too close to the end is refused where its length is read. -/
theorem heartbeatLoop_refused {record : HeartbeatRecord} (few : record.value.length < 2) :
    (heartbeatLoop size record.image timeout reads).ret = -35 := by
  have type : unpackUint16Le record.image 0 =
      ⟨2, bytesOf 2 record.value.length ++ record.value, record.type⟩ := by
    apply unpackUint16Le_bytes record.type_lt
    rw [List.length_append, bytesOf_length]
    omega
  have len : unpackUint16Le (bytesOf 2 record.value.length ++ record.value) 0 =
      ⟨-1, bytesOf 2 record.value.length ++ record.value, 0⟩ := by
    apply unpackUint16Le_refused
    rw [List.length_append, bytesOf_length]
    omega
  have some : ¬ record.image.length = 0 := by
    rw [image_length]
    omega
  have read : ¬ (2 : ℤ) < 0 := by decide
  have refused : (-1 : ℤ) < 0 := by decide
  rw [heartbeatLoop, if_neg some]
  simp only [type, len, read, refused, if_true, if_false]

/-! ## Whole bodies -/

theorem EndsLong.tail {record : HeartbeatRecord} {records : List HeartbeatRecord}
    (long : EndsLong (record :: records)) : EndsLong records := by
  intro last mem
  apply long last
  rw [List.getLast?_cons, show records.getLast? = some last from mem]
  rfl

/-- Behind a record there is enough, in its value or in the records that follow. -/
theorem EndsLong.enough {record : HeartbeatRecord} {records : List HeartbeatRecord}
    (long : EndsLong (record :: records)) :
    2 ≤ record.value.length + (records.flatMap image).length := by
  cases records with
  | nil =>
      have last := long record rfl
      omega
  | cons next records =>
      rw [List.flatMap_cons, List.length_append, image_length]
      omega

theorem heartbeatLoop_records {records : List HeartbeatRecord}
    (timed : ∀ record ∈ records, record.Timed) (long : EndsLong records) :
    ∃ more, heartbeatLoop size (records.flatMap image) timeout reads =
      ⟨0, records.foldl (fun old record => record.timeout old) timeout, reads ++ more⟩ := by
  induction records generalizing timeout reads with
  | nil =>
      rw [heartbeatLoop]
      exact ⟨[], by rw [List.append_nil]; rfl⟩
  | cons record records ih =>
      rw [List.flatMap_cons]
      rcases heartbeatLoop_record (timed record List.mem_cons_self) long.enough with ⟨first, step⟩
      rcases ih (fun next mem => timed next (List.mem_cons_of_mem _ mem)) long.tail with
        ⟨more, run⟩
      rw [step, run, List.append_assoc]
      exact ⟨_, rfl⟩

/-- A sequence that ends with a record that is too short is refused. -/
theorem heartbeatLoop_short {records : List HeartbeatRecord}
    (timed : ∀ record ∈ records, record.Timed) {last : HeartbeatRecord}
    (ends : records.getLast? = some last) (few : last.value.length < 2) :
    (heartbeatLoop size (records.flatMap image) timeout reads).ret ≠ 0 := by
  induction records generalizing timeout reads with
  | nil => cases ends
  | cons record records ih =>
      cases records with
      | nil =>
          rw [List.getLast?_singleton] at ends
          rw [← Option.some.inj ends] at few
          rw [List.flatMap_cons, List.flatMap_nil, List.append_nil, heartbeatLoop_refused few]
          decide
      | cons next records =>
          have enough : 2 ≤ record.value.length + ((next :: records).flatMap image).length := by
            rw [List.flatMap_cons, List.length_append, image_length]
            omega
          rw [List.flatMap_cons]
          rcases heartbeatLoop_record (timed record List.mem_cons_self) enough with ⟨first, step⟩
          rw [step]
          exact ih (fun other mem => timed other (List.mem_cons_of_mem _ mem)) ends

end Steps

/-- What was read of a record, before what follows it. -/
theorem complete_cons {src : List Byte} (read : ¬ (unpackUint16Le src 0).ret < 0)
    (read' : ¬ (unpackUint16Le (unpackUint16Le src 0).src 0).ret < 0)
    (inside : ¬ (unpackUint16Le (unpackUint16Le src 0).src 0).src.length <
      (unpackUint16Le (unpackUint16Le src 0).src 0).out)
    (timed : (unpackUint16Le src 0).out = rpcHeartbeatTypeTimeout →
      (unpackUint16Le (unpackUint16Le src 0).src 0).out = 4)
    (rest : ∃ records, Complete ((unpackUint16Le (unpackUint16Le src 0).src 0).src.drop
      (unpackUint16Le (unpackUint16Le src 0).src 0).out) records) :
    ∃ records, Complete src records := by
  rcases rest with ⟨records, image, others⟩
  rcases unpackUint16Le_read read with ⟨_, typeBytes, type_lt⟩
  rcases unpackUint16Le_read read' with ⟨_, lenBytes, len_lt⟩
  generalize unpackUint16Le (unpackUint16Le src 0).src 0 = len at *
  generalize unpackUint16Le src 0 = type at *
  have length : (len.src.take len.out).length = len.out := by
    rw [List.length_take]
    omega
  exact ⟨⟨type.out, len.src.take len.out, type_lt, by rw [length]; exact len_lt⟩ :: records, by
    rw [List.flatMap_cons, ← image]
    unfold HeartbeatRecord.image
    simp only
    rw [length, List.append_assoc, List.append_assoc, List.take_append_drop, ← lenBytes]
    exact typeBytes, by
    rintro record (_ | ⟨_, mem⟩)
    · intro set
      rw [length]
      exact timed set
    · exact others record mem⟩

/-- What the loop accepts is a sequence of records. -/
theorem records_of_heartbeatLoop (size : ℕ) (src : List Byte) (timeout : ℚ)
    (reads : List (ℕ × ℕ)) (accepted : (heartbeatLoop size src timeout reads).ret = 0) :
    ∃ records, Complete src records := by
  fun_induction heartbeatLoop size src timeout reads with
  | case1 src timeout reads none =>
      exact ⟨[], List.length_eq_zero_iff.mp none, nofun⟩
  | case2 => cases accepted
  | case3 => cases accepted
  | case4 => cases accepted
  | case5 => cases accepted
  | case6 src timeout reads some type read reads' len read' reads'' inside set four ih =>
      exact complete_cons read read' inside (fun _ => not_not.mp four) (ih accepted)
  | case7 src timeout reads some type read reads' len read' reads'' inside other ih =>
      exact complete_cons read read' inside (fun set => absurd set other) (ih accepted)

/-- All reads are inside the body. -/
theorem heartbeatLoop_reads (size : ℕ) (src : List Byte) (timeout : ℚ) (reads : List (ℕ × ℕ))
    (within : src.length ≤ size) (before : ∀ read ∈ reads, read.1 + read.2 ≤ size) :
    ∀ read ∈ (heartbeatLoop size src timeout reads).reads, read.1 + read.2 ≤ size := by
  have one {list : List (ℕ × ℕ)} {off n : ℕ} (all : ∀ read ∈ list, read.1 + read.2 ≤ size)
      (last : off + n ≤ size) : ∀ read ∈ list ++ [(off, n)], read.1 + read.2 ≤ size := by
    intro read mem
    rcases List.mem_append.mp mem with old | new
    · exact all read old
    · rw [List.mem_singleton.mp new]
      exact last
  fun_induction heartbeatLoop size src timeout reads with
  | case1 => exact before
  | case2 => exact before
  | case3 src timeout reads some type read reads' len refused =>
      have shorter : type.src.length + 2 = src.length := unpackUint16Le_shorter read
      exact one before (by omega)
  | case4 src timeout reads some type read reads' len read' reads'' outside =>
      have shorter : type.src.length + 2 = src.length := unpackUint16Le_shorter read
      have shorter' : len.src.length + 2 = type.src.length := unpackUint16Le_shorter read'
      exact one (one before (by omega)) (by omega)
  | case5 src timeout reads some type read reads' len read' reads'' inside set four =>
      have shorter : type.src.length + 2 = src.length := unpackUint16Le_shorter read
      have shorter' : len.src.length + 2 = type.src.length := unpackUint16Le_shorter read'
      exact one (one before (by omega)) (by omega)
  | case6 src timeout reads some type read reads' len read' reads'' inside set four ih =>
      have shorter : type.src.length + 2 = src.length := unpackUint16Le_shorter read
      have shorter' : len.src.length + 2 = type.src.length := unpackUint16Le_shorter read'
      apply ih
      · rw [List.length_drop]
        omega
      · exact one (one (one before (by omega)) (by omega)) (by omega)
  | case7 src timeout reads some type read reads' len read' reads'' inside other ih =>
      have shorter : type.src.length + 2 = src.length := unpackUint16Le_shorter read
      have shorter' : len.src.length + 2 = type.src.length := unpackUint16Le_shorter read'
      apply ih
      · rw [List.length_drop]
        omega
      · exact one (one before (by omega)) (by omega)

/-! ## Heartbeats -/

/-- A heartbeat is read inside its body and accepted if and only if it is a sequence of complete
records, and then sets the last timeout. -/
def HeartbeatExact (now : ℚ) (info : CltInfo) (pkg : RpcHead) (body : List Byte) : Prop :=
  let run := onHeartbeat now info pkg body
  (∀ read ∈ run.reads, read.1 + read.2 ≤ body.length) ∧
  (run.ret = 0 ↔ ∃ records, Complete body records) ∧
  ∀ records, Complete body records →
    run.info.heartbeatTimeout = lastTimeout records info.heartbeatTimeout

/-- Exactly where the body does not end with a record of less than six bytes. -/
theorem heartbeat_exact_iff (now : ℚ) (info : CltInfo) (pkg : RpcHead) (body : List Byte) :
    HeartbeatExact now info pkg body ↔ ∀ records, Complete body records → EndsLong records := by
  constructor
  · rintro ⟨_, accepts, _⟩ records complete last mem
    by_contra few
    apply heartbeatLoop_short complete.timed mem (Nat.not_le.mp few)
    rw [← complete.image]
    exact accepts.mpr ⟨records, complete⟩
  · intro long
    have run (records : List HeartbeatRecord) (complete : Complete body records) :
        (onHeartbeat now info pkg body).ret = 0 ∧
          (onHeartbeat now info pkg body).info.heartbeatTimeout =
            lastTimeout records info.heartbeatTimeout := by
      unfold onHeartbeat
      rcases heartbeatLoop_records complete.timed (long records complete) with ⟨more, eq⟩
      rw [← complete.image] at eq
      rw [lastTimeout_eq_foldl, eq]
      exact ⟨rfl, rfl⟩
    constructor
    · exact heartbeatLoop_reads _ _ _ _ (le_refl _) nofun
    constructor
    · constructor
      · exact records_of_heartbeatLoop _ _ _ _
      · rintro ⟨records, complete⟩
        exact (run records complete).1
    · intro records complete
      exact (run records complete).2

/-- One record without a value. -/
theorem heartbeat_exact_fails :
    ¬ HeartbeatExact 0 ⟨0, 3⟩ ⟨rpcPkgMagic, 0, 0, 0, 0, 0, 0, 4, 0⟩ [2, 0, 0, 0] := by
  rintro ⟨_, accepts, _⟩
  have empty : Complete [2, 0, 0, 0] [⟨2, [], by decide, by decide⟩] := by
    constructor
    · rfl
    · rintro record (_ | ⟨_, mem⟩)
      · intro set
        cases set
      · cases mem
  exact heartbeatLoop_short empty.timed rfl (by decide) (accepts.mpr ⟨_, empty⟩)

end ViabtcServer.Network
