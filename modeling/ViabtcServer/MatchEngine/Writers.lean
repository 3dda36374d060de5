import ViabtcServer.MatchEngine.Core
import ViabtcServer.Network.Job
import Mathlib.Algebra.Order.Group.Multiset

/-!
# The writers of the operation log and of the history

`me_operlog.c` and `me_history.c` collect what commands append, turn it into
statements every tenth of a second and hand these to a pool of threads. A
statement about the log is an `INSERT` of many entries into the table of the day;
one about the history has all rows for one table.
-/

namespace ViabtcServer.MatchEngine

open Decimal Container Network

/-! ## The operation log -/

/-- A local date, the suffix of an `operlog` table. -/
abbrev Day : Type := ℕ

/-- What `flush_log` sends. -/
inductive LogStatement
  | createTable (day : Day)
  | insert (day : Day) (rows : List OperLog)

/-- The entries a statement writes. -/
def LogStatement.rows : LogStatement → List OperLog
  | createTable _ => []
  | insert _ rows => rows

/-- The variables of `me_operlog.c`. `appended` is a ghost: every entry that was
appended. -/
structure LogWriter where
  list : List OperLog
  tableLast : Option Day
  job : Job LogStatement
  appended : List OperLog := []

namespace LogWriter

/-- `init_operlog`: the pool has one thread. -/
def init : LogWriter where
  list := []
  tableLast := none
  job := nwJobCreate 1

/-- `append_operlog`. -/
def append (w : LogWriter) (entry : OperLog) : LogWriter :=
  { w with
    list := w.list ++ [entry]
    appended := w.appended ++ [entry] }

/-- `flush_log`. Threads may take turns `between` the two statements. -/
def flushLog (w : LogWriter) (today : Day) (between : List ℕ) : LogWriter :=
  let job :=
    if w.tableLast ≠ some today then (nwJobAdd w.job (.createTable today)).turns between
    else w.job
  { w with
    list := []
    tableLast := some today
    job := nwJobAdd job (.insert today w.list) }

def onTimer (w : LogWriter) (today : Day) (between : List ℕ) : LogWriter :=
  if w.list.length > 0 then w.flushLog today between else w

def turns (w : LogWriter) (schedule : List ℕ) : LogWriter :=
  { w with job := w.job.turns schedule }

/-- The entries that have been written to the database. -/
def written (w : LogWriter) : List OperLog :=
  w.job.executed.flatMap LogStatement.rows

/-- `fini_operlog` up to `nw_job_release`: the timer once more, and a tenth of a
second in which threads take turns. -/
def beforeRelease (w : LogWriter) (today : Day) (between sleep : List ℕ) : LogWriter :=
  (w.onTimer today between).turns sleep

/-- `fini_operlog`; the threads make their last turns while they are joined. -/
def finiOperlog (w : LogWriter) (today : Day) (between sleep joining : List ℕ) : LogWriter :=
  let w := w.beforeRelease today between sleep
  { w with job := w.job.release.turns joining }

end LogWriter

/-- What happens to the writer of the log while the engine runs. -/
inductive LogEvent
  | append (entry : OperLog)
  | timer (today : Day) (between : List ℕ)
  | turn (thread : ℕ)

def LogWriter.step (w : LogWriter) : LogEvent → LogWriter
  | .append entry => w.append entry
  | .timer today between => w.onTimer today between
  | .turn thread => w.turns [thread]

def LogWriter.run (w : LogWriter) (events : List LogEvent) : LogWriter :=
  events.foldl step w

/-! ## The history -/

/-- `HISTORY_HASH_NUM`. -/
def historyHashNum : ℕ := 100

/-- `MARKET_ROLE_MAKER` and `MARKET_ROLE_TAKER`. -/
inductive Role
  | maker
  | taker
  deriving DecidableEq

/-- The role of the party of `side` in a fill. -/
def Fill.role (f : Fill) (side : Side) : Role :=
  if f.takerSide = side then .taker else .maker

/-- The tables of the history. -/
inductive HistoryType
  | userBalance
  | userOrder
  | userDeal
  | orderDetail
  | orderDeal
  deriving DecidableEq

/-- `struct dict_sql_key`. -/
structure HistoryKey where
  type : HistoryType
  hash : ℕ
  deriving DecidableEq

/-- A row of one of the history tables. -/
inductive HistoryRow
  | userBalance (t : Time) (userId : ℕ) (asset business : String) (change balance : Mpd)
      (detail : Detail)
  | userOrder (order : Order)
  | userDeal (t : Time) (userId : ℕ) (market : String) (dealId orderId dealOrderId : ℕ)
      (side : Side) (role : Role) (price amount deal fee dealFee : Mpd)
  | orderDetail (order : Order)
  | orderDeal (t : Time) (userId dealId orderId dealOrderId : ℕ) (role : Role)
      (price amount deal fee dealFee : Mpd)

/-- The table of a row: by user, or by order. -/
def HistoryRow.key : HistoryRow → HistoryKey
  | userBalance _ userId .. => ⟨.userBalance, userId % historyHashNum⟩
  | userOrder order => ⟨.userOrder, order.userId % historyHashNum⟩
  | userDeal _ userId .. => ⟨.userDeal, userId % historyHashNum⟩
  | orderDetail order => ⟨.orderDetail, order.id % historyHashNum⟩
  | orderDeal _ _ _ orderId .. => ⟨.orderDeal, orderId % historyHashNum⟩

/-- The rows of an output, in the order they are appended; messages have none. -/
def Output.rows : Output → List HistoryRow
  | dealHistory t market f =>
      [.orderDeal t f.askUser f.dealId f.askId f.bidId (f.role .ask) f.price f.amount f.deal
          f.askFee f.bidFee,
        .orderDeal t f.bidUser f.dealId f.bidId f.askId (f.role .bid) f.price f.amount f.deal
          f.bidFee f.askFee,
        .userDeal t f.askUser market f.dealId f.askId f.bidId .ask (f.role .ask) f.price f.amount
          f.deal f.askFee f.bidFee,
        .userDeal t f.bidUser market f.dealId f.bidId f.askId .bid (f.role .bid) f.price f.amount
          f.deal f.bidFee f.askFee]
  | balanceHistory t userId asset business change balance detail =>
      [.userBalance t userId asset business change balance detail]
  | orderHistory order => [.userOrder order, .orderDetail order]
  | _ => []

/-- An `INSERT` of rows into the table of `key`. -/
structure HistoryStatement where
  key : HistoryKey
  rows : List HistoryRow

/-- The variables of `me_history.c`. `appended` is a ghost: every row that was
appended. -/
structure HistoryWriter where
  dictSql : Dict HistoryKey (List HistoryRow)
  job : Job HistoryStatement
  appended : List HistoryRow := []

namespace HistoryWriter

/-- `init_history`, with `settings.history_thread`. -/
def init (historyThread : ℕ) : HistoryWriter where
  dictSql := ∅
  job := nwJobCreate historyThread

/-- `get_sql`, the new row and `set_sql`. -/
def append (w : HistoryWriter) (row : HistoryRow) : HistoryWriter :=
  { w with
    dictSql := dictReplace w.dictSql row.key ((dictFind w.dictSql row.key).getD [] ++ [row])
    appended := w.appended ++ [row] }

/-- The loop of `on_timer` over the statements collected. Threads may take turns
`between` two of them. -/
def flush (between : HistoryKey → List ℕ) :
    List (Sigma fun _ : HistoryKey => List HistoryRow) → Job HistoryStatement →
      Job HistoryStatement
  | [], job => job
  | ⟨key, rows⟩ :: rest, job =>
      flush between rest ((nwJobAdd job ⟨key, rows⟩).turns (between key))

def onTimer (w : HistoryWriter) (between : HistoryKey → List ℕ) : HistoryWriter :=
  { w with
    dictSql := ∅
    job := flush between w.dictSql.entries w.job }

def turns (w : HistoryWriter) (schedule : List ℕ) : HistoryWriter :=
  { w with job := w.job.turns schedule }

/-- The rows that have been written to the database. -/
def written (w : HistoryWriter) : List HistoryRow :=
  w.job.executed.flatMap HistoryStatement.rows

/-- `fini_history` up to `nw_job_release`. -/
def beforeRelease (w : HistoryWriter) (between : HistoryKey → List ℕ) (sleep : List ℕ) :
    HistoryWriter :=
  (w.onTimer between).turns sleep

def finiHistory (w : HistoryWriter) (between : HistoryKey → List ℕ) (sleep joining : List ℕ) :
    HistoryWriter :=
  let w := w.beforeRelease between sleep
  { w with job := w.job.release.turns joining }

end HistoryWriter

/-- What happens to the writer of the history while the engine runs. -/
inductive HistoryEvent
  | append (row : HistoryRow)
  | timer (between : HistoryKey → List ℕ)
  | turn (thread : ℕ)

def HistoryWriter.step (w : HistoryWriter) : HistoryEvent → HistoryWriter
  | .append row => w.append row
  | .timer between => w.onTimer between
  | .turn thread => w.turns [thread]

def HistoryWriter.run (w : HistoryWriter) (events : List HistoryEvent) : HistoryWriter :=
  events.foldl step w

/-! ## What is not written yet -/

/-- The pool of the log has one thread, and each entry appended is in a statement
or still in the list, in the order of the appends. -/
structure LogWriter.Sound (w : LogWriter) : Prop where
  job : w.job.Sound
  thread : w.job.workers.length = 1
  entries : w.appended = w.job.added.flatMap LogStatement.rows ++ w.list

/-- The rows in the dictionary. -/
def HistoryWriter.pending (w : HistoryWriter) : Multiset HistoryRow :=
  dictSum (fun _ (rows : List HistoryRow) => Multiset.ofList rows) w.dictSql

/-- Each row appended is in a statement or still in the dictionary. -/
structure HistoryWriter.Sound (w : HistoryWriter) : Prop where
  job : w.job.Sound
  rows : Multiset.ofList w.appended =
    Multiset.ofList (w.job.added.flatMap HistoryStatement.rows) + w.pending

namespace LogWriter

variable {w : LogWriter}

theorem Sound.init : LogWriter.init.Sound :=
  ⟨Job.sound_create 1, rfl, rfl⟩

theorem Sound.append (sound : w.Sound) (entry : OperLog) : (w.append entry).Sound where
  job := sound.job
  thread := sound.thread
  entries := by
    show w.appended ++ [entry] = w.job.added.flatMap LogStatement.rows ++ (w.list ++ [entry])
    rw [sound.entries, List.append_assoc]

theorem Sound.turns (sound : w.Sound) (schedule : List ℕ) : (w.turns schedule).Sound where
  job := sound.job.turns
  thread := (w.job.turns_length schedule).trans sound.thread
  entries := by
    rw [LogWriter.turns, Job.turns_added]
    exact sound.entries

/-- All entries of the list go into one statement. -/
theorem Sound.flushLog (sound : w.Sound) (today : Day) (between : List ℕ) :
    (w.flushLog today between).Sound := by
  unfold LogWriter.flushLog
  split
  · refine ⟨((sound.job.add _).turns).add _, ?_, ?_⟩
    · exact (Job.turns_length _ _).trans sound.thread
    · simp [nwJobAdd, LogStatement.rows, sound.entries]
  · refine ⟨sound.job.add _, sound.thread, ?_⟩
    simp [nwJobAdd, LogStatement.rows, sound.entries]

theorem Sound.onTimer (sound : w.Sound) (today : Day) (between : List ℕ) :
    (w.onTimer today between).Sound := by
  unfold LogWriter.onTimer
  split
  · exact sound.flushLog today between
  · exact sound

theorem onTimer_list (w : LogWriter) (today : Day) (between : List ℕ) :
    (w.onTimer today between).list = [] := by
  unfold LogWriter.onTimer
  split
  · rfl
  · exact List.length_eq_zero_iff.mp (by omega)

theorem Sound.run {events : List LogEvent} (sound : w.Sound) : (w.run events).Sound := by
  induction events generalizing w with
  | nil => exact sound
  | cons event rest ih =>
      cases event with
      | append entry => exact ih (sound.append entry)
      | timer today between => exact ih (sound.onTimer today between)
      | turn thread => exact ih (sound.turns [thread])

end LogWriter

namespace HistoryWriter

variable {w : HistoryWriter}

theorem Sound.init (historyThread : ℕ) : (HistoryWriter.init historyThread).Sound :=
  ⟨Job.sound_create historyThread, rfl⟩

theorem Sound.append (sound : w.Sound) (row : HistoryRow) : (w.append row).Sound where
  job := sound.job
  rows := by
    have more : (w.append row).pending = w.pending + Multiset.ofList [row] := by
      unfold HistoryWriter.pending HistoryWriter.append
      rw [dictSum_replace]
      cases found : dictFind w.dictSql row.key with
      | none =>
          rw [dictDelete_of_absent found]
          exact add_comm _ _
      | some rows =>
          rw [dictSum_delete _ found, Option.getD_some, ← Multiset.coe_add]
          exact add_right_comm _ _ _
    show Multiset.ofList (w.appended ++ [row]) = _
    rw [more, ← add_assoc, ← Multiset.coe_add, sound.rows]
    rfl

theorem Sound.turns (sound : w.Sound) (schedule : List ℕ) : (w.turns schedule).Sound where
  job := sound.job.turns
  rows := by
    rw [HistoryWriter.turns, Job.turns_added]
    exact sound.rows

/-- The statements of the dictionary, one by one. -/
theorem flush_spec (between : HistoryKey → List ℕ)
    (entries : List (Sigma fun _ : HistoryKey => List HistoryRow)) {job : Job HistoryStatement}
    (sound : job.Sound) : (flush between entries job).Sound ∧
      (flush between entries job).added =
        job.added ++ entries.map fun entry => ⟨entry.1, entry.2⟩ := by
  induction entries generalizing job with
  | nil => exact ⟨sound, (List.append_nil _).symm⟩
  | cons entry rest ih =>
      rcases ih (sound.add ⟨entry.1, entry.2⟩).turns with ⟨sound', added⟩
      refine ⟨sound', added.trans ?_⟩
      rw [Job.turns_added, nwJobAdd, List.map_cons, List.append_assoc]
      rfl

theorem Sound.onTimer (sound : w.Sound) (between : HistoryKey → List ℕ) :
    (w.onTimer between).Sound := by
  rcases flush_spec between w.dictSql.entries sound.job with ⟨sound', added⟩
  refine ⟨sound', ?_⟩
  have empty : (w.onTimer between).pending = 0 := rfl
  show Multiset.ofList w.appended = _
  rw [empty, add_zero, HistoryWriter.onTimer, added, List.flatMap_append, ← Multiset.coe_add,
    sound.rows]
  congr 1
  unfold HistoryWriter.pending dictSum
  induction w.dictSql.entries with
  | nil => rfl
  | cons entry rest ih =>
      rw [List.map_cons, List.sum_cons, ih, List.map_cons, List.flatMap_cons, ← Multiset.coe_add]

theorem Sound.run {events : List HistoryEvent} (sound : w.Sound) : (w.run events).Sound := by
  induction events generalizing w with
  | nil => exact sound
  | cons event rest ih =>
      cases event with
      | append row => exact ih (sound.append row)
      | timer between => exact ih (sound.onTimer between)
      | turn thread => exact ih (sound.turns [thread])

end HistoryWriter

end ViabtcServer.MatchEngine
