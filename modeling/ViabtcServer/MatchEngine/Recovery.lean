import ViabtcServer.Container.DayTables
import ViabtcServer.MatchEngine.Dump
import ViabtcServer.MatchEngine.LoadSlice
import ViabtcServer.MatchEngine.Writers

/-!
# Restarting from the database

`init_from_db` loads the last slice and then the tables of the log, one for each
step of 86400 seconds from the time of the slice to the end of today; with no
slice it loads the table of today only. A table that does not exist counts as
loaded.
-/

namespace ViabtcServer.MatchEngine

open Decimal Container Sql

/-! ## The tables of the log -/

/-- The table a statement is about. -/
def LogStatement.day : LogStatement → Day
  | createTable day => day
  | insert day _ => day

/-- The table of a day after these statements have been executed. -/
def operlogTable (statements : List LogStatement) (day : Day) : Option (List OperLog) :=
  if ∃ s ∈ statements, s.day = day then
    some ((statements.filter fun s => s.day = day).flatMap LogStatement.rows)
  else none

/-- What `flush_log` writes: consecutive ids from one on, on dates that do not go
back. -/
structure DayLog (statements : List LogStatement) : Prop where
  days : statements.Pairwise fun s s' => s.day ≤ s'.day
  numbers : (statements.flatMap LogStatement.rows).map OperLog.id =
    List.range' 1 (statements.flatMap LogStatement.rows).length

/-- The largest id that was written. -/
def lastFlushed (statements : List LogStatement) : ℕ :=
  lastKey OperLog.id (statements.flatMap LogStatement.rows) 0

/-- The entries that were written, with their dates. -/
def datedEntries (statements : List LogStatement) : List (Day × OperLog) :=
  statements.flatMap fun s => s.rows.map fun row => (s.day, row)

/-! ## The restart -/

/-- The rules of a time zone: the date `localtime` gives, and what `mktime` makes
of a date at midnight with `tm_isdst` zero. -/
structure TimeZone where
  date : ℕ → Day
  mktime : Day → ℕ
  monotone : Monotone date

/-- The circumstances of a restart: the time, the zone, and what the replay of
each entry finds. -/
structure Restart where
  now : ℕ
  zone : TimeZone
  clock : OperLog → Time
  padding : OperLog → ℕ
  fuel : ℕ

def getTodayStart (r : Restart) : ℕ :=
  r.zone.mktime (r.zone.date r.now)

section Init

variable [Libmpdec] [Settings]

/-- `load_operlog_from_db` at the date of a time. -/
def loadOperlogFromDb (r : Restart) (tables : Day → Option (List OperLog)) (time startId : ℕ)
    (e : Engine) : OptionT Option (ℕ × Engine) :=
  match tables (r.zone.date time) with
  | none => pure (startId, e)
  | some rows => loadOperlog r.clock r.fuel r.padding rows startId e

/-- The loop of `init_from_db` from `begin` to `stop`. -/
def loadDays (r : Restart) (tables : Day → Option (List OperLog)) (begin stop : ℕ)
    (state : ℕ × Engine) : OptionT Option (ℕ × Engine) :=
  if begin < stop then do
    let state ← loadOperlogFromDb r tables begin state.1 state.2
    loadDays r tables (begin + 86400) stop state
  else pure state
termination_by stop - begin
decreasing_by omega

/-- `init_from_db`. The variables keep their zeros when there is no slice. -/
def initFromDb (r : Restart) (d : SliceDb) (tables : Day → Option (List OperLog)) (e : Engine) :
    OptionT Option Engine := do
  let row : SliceRow := d.lastSlice.getD ⟨0, 0, 0, 0, 0⟩
  let e := e.resume row
  let state ← (
    if row.time = 0 then loadOperlogFromDb r tables r.now row.endOperId e
    else do
      let e ← OptionT.mk (some (loadSliceFromDb d row.time e))
      loadDays r tables row.time (getTodayStart r + 86400) (row.endOperId, e))
  pure { state.2 with operlogIdStart := state.1 }

/-! ## What it promises -/

/-- The result of a computation that returns and does not fail. -/
def success {α : Type} (x : OptionT Option α) : Option α :=
  x.run.join

/-- The replay of one entry. -/
def Restart.apply (r : Restart) (e : Engine) (row : OperLog) : Option Engine :=
  (loadOper (r.clock row) r.fuel (r.padding row) e row.method row.params).join

/-- The state of the last slice, or the empty state. -/
def Engine.atLastSlice (d : SliceDb) (e : Engine) : Option Engine :=
  match d.lastSlice with
  | none => some (e.resume ⟨0, 0, 0, 0, 0⟩)
  | some row => e.loadSlice d row

/-- The id the log is replayed from. -/
def SliceDb.endOperId (d : SliceDb) : ℕ :=
  (d.lastSlice.map SliceRow.endOperId).getD 0

/-- The entries past the last slice, in order. -/
def entriesPast (statements : List LogStatement) (last : ℕ) : List OperLog :=
  rowsAfter OperLog.id (statements.flatMap LogStatement.rows) last

/-- A restart that succeeds has applied all entries past the last slice to its
state, each once and in order, and continues with the largest id. -/
def RecoversAll (r : Restart) (d : SliceDb) (statements : List LogStatement) (e : Engine) : Prop :=
  ∀ e', success (initFromDb r d (operlogTable statements) e) = some e' → ∃ base last,
    e.atLastSlice d = some base ∧
      (entriesPast statements d.endOperId).foldlM r.apply base = some last ∧
        e' = { last with operlogIdStart := max d.endOperId (lastFlushed statements) }

/-- The days whose tables are loaded. -/
def visitedDays (r : Restart) (d : SliceDb) : List Day :=
  match d.lastSlice with
  | none => [r.zone.date r.now]
  | some row =>
      (List.range' row.time ((getTodayStart r + 86400 - row.time + 86399) / 86400) 86400).map
        r.zone.date

/-- The entries of the days that are loaded, past the last slice. -/
def visitedEntries (r : Restart) (d : SliceDb) (statements : List LogStatement) : List OperLog :=
  (selected OperLog.id (datedEntries statements) (visitedDays r d) d.endOperId).map Prod.snd

/-- Nothing was flushed past the slice, or the day of the last entry is loaded;
otherwise the start fails anyway: a day is left out before one that is loaded, or
an entry is refused. -/
def LogCovered (r : Restart) (d : SliceDb) (statements : List LogStatement) (e : Engine) : Prop :=
  lastFlushed statements ≤ d.endOperId ∨
    (∃ a ∈ datedEntries statements, a.2.id = lastFlushed statements ∧ a.1 ∈ visitedDays r d) ∨
      ¬ NoGap OperLog.id (datedEntries statements) (visitedDays r d) d.endOperId ∨
        ∀ base, e.atLastSlice d = some base →
          (visitedEntries r d statements).foldlM r.apply base = none

/-! ## The loop over the days -/

variable {r : Restart} {d : SliceDb} {statements : List LogStatement} {e e' : Engine}

omit [Libmpdec] [Settings] in
@[simp]
theorem success_pure {α : Type} (a : α) : success (pure a) = some a := rfl

omit [Libmpdec] [Settings] in
theorem success_bind {α β : Type} (x : OptionT Option α) (f : α → OptionT Option β) :
    success (x >>= f) = (success x).bind fun a => success (f a) := by
  unfold success
  rw [OptionT.run_bind]
  cases x.run with
  | none => rfl
  | some answer => cases answer <;> rfl

omit [Libmpdec] [Settings] in
theorem success_foldlM {α β : Type} (f : β → α → OptionT Option β) (list : List α) (b : β) :
    success (list.foldlM f b) = list.foldlM (fun b a => success (f b a)) b := by
  induction list generalizing b with
  | nil => rfl
  | cons a rest ih =>
      rw [List.foldlM_cons, List.foldlM_cons, success_bind]
      exact congrArg _ (funext ih)

theorem success_loadRow (state : ℕ × Engine) (row : OperLog) :
    success (loadRow r.clock r.fuel r.padding state row) =
      applyNext OperLog.id r.apply state row := by
  unfold loadRow applyNext
  split
  · rfl
  · rw [success_bind]
    unfold success Restart.apply
    rw [OptionT.run_mk]
    cases (loadOper (r.clock row) r.fuel (r.padding row) state.2 row.method row.params).join <;> rfl

omit [Libmpdec] [Settings] in
theorem datedEntries_snd (statements : List LogStatement) :
    (datedEntries statements).map Prod.snd = statements.flatMap LogStatement.rows := by
  unfold datedEntries
  rw [List.map_flatMap]
  apply List.flatMap_congr
  intro s _
  rw [List.map_map]
  exact List.map_id _

omit [Libmpdec] [Settings] in
theorem DayLog.dated_numbers (log : DayLog statements) :
    (datedEntries statements).map (fun a => a.2.id) =
      List.range' 1 (datedEntries statements).length := by
  have numbers := log.numbers
  rw [← datedEntries_snd, List.map_map, List.length_map] at numbers
  exact numbers

omit [Libmpdec] [Settings] in
/-- The rows of the log with their dates are sorted by both. -/
theorem DayLog.sorted (log : DayLog statements) :
    DaySorted OperLog.id (datedEntries statements) := by
  have days : (datedEntries statements).Pairwise fun a b => a.1 ≤ b.1 := by
    unfold datedEntries
    rw [List.pairwise_flatMap]
    constructor
    · intro s _
      rw [List.pairwise_map]
      exact List.pairwise_of_forall fun _ _ => le_rfl
    · apply log.days.imp
      intro s s' le a first b second
      rcases List.mem_map.mp first with ⟨row, _, rfl⟩
      rcases List.mem_map.mp second with ⟨row', _, rfl⟩
      exact le
  have numbers : (datedEntries statements).Pairwise fun a b => a.2.id < b.2.id := by
    have counted : ((datedEntries statements).map fun a => a.2.id).Pairwise (· < ·) := by
      rw [log.dated_numbers]
      exact List.pairwise_lt_range'
    exact List.pairwise_map.mp counted
  exact days.and numbers

omit [Libmpdec] [Settings] in
theorem ofDay_datedEntries (statements : List LogStatement) (day : Day) :
    ofDay (datedEntries statements) day =
      (statements.filter fun s => s.day = day).flatMap LogStatement.rows := by
  unfold ofDay datedEntries
  induction statements with
  | nil => rfl
  | cons s rest ih =>
      rw [List.flatMap_cons, List.filter_append, List.map_append, ih, List.filter_map, List.map_map]
      by_cases same : s.day = day
      · rw [List.filter_cons_of_pos (by simpa using same), List.flatMap_cons,
          List.filter_eq_self.mpr (by simp [same])]
        exact congrArg (· ++ _) (List.map_id _)
      · rw [List.filter_cons_of_neg (by simpa using same),
          List.filter_eq_nil_iff.mpr (by simp [same])]
        rfl

/-- Loading the table of a day applies its entries past the last one. -/
theorem success_loadOperlogFromDb (log : DayLog statements) (time startId : ℕ) (e : Engine) :
    success (loadOperlogFromDb r (operlogTable statements) time startId e) =
      visit OperLog.id r.apply (datedEntries statements) (startId, e) (r.zone.date time) := by
  unfold loadOperlogFromDb operlogTable visit
  rw [ofDay_datedEntries]
  by_cases present : ∃ s ∈ statements, s.day = r.zone.date time
  · have sorted : ((statements.filter fun s => s.day = r.zone.date time).flatMap
        LogStatement.rows).Pairwise fun row row' => row.id < row'.id := by
      rw [← ofDay_datedEntries, ofDay, List.pairwise_map]
      exact (List.Pairwise.sublist List.filter_sublist log.sorted).imp fun both => both.2
    rw [if_pos present]
    show success (loadOperlog r.clock r.fuel r.padding _ startId e) = _
    rw [loadOperlog, readTable_eq sorted (by decide), success_foldlM]
    exact congrArg (fun step => List.foldlM step (startId, e) _)
      (funext fun state => funext fun row => success_loadRow state row)
  · have nothing : (statements.filter fun s => s.day = r.zone.date time) = [] := by
      apply List.filter_eq_nil_iff.mpr
      intro s member same
      exact present ⟨s, member, of_decide_eq_true same⟩
    rw [if_neg present, nothing]
    rfl

/-- The times the loop comes to. -/
theorem success_loadDays (log : DayLog statements) (begin stop : ℕ) (state : ℕ × Engine) :
    success (loadDays r (operlogTable statements) begin stop state) =
      ((List.range' begin ((stop - begin + 86399) / 86400) 86400).map r.zone.date).foldlM
        (visit OperLog.id r.apply (datedEntries statements)) state := by
  induction rounds : (stop - begin + 86399) / 86400 generalizing begin state with
  | zero =>
      have finished : ¬ begin < stop := by omega
      rw [loadDays, if_neg finished]
      rfl
  | succ n ih =>
      have more : begin < stop := by omega
      have rest : (stop - (begin + 86400) + 86399) / 86400 = n := by omega
      rw [loadDays, if_pos more, success_bind, success_loadOperlogFromDb log, List.range'_succ,
        List.map_cons, List.foldlM_cons]
      exact congrArg _ (funext fun state => ih (begin + 86400) state rest)

/-! ## What is loaded -/

omit [Libmpdec] [Settings] in
theorem visitedDays_sorted (r : Restart) (d : SliceDb) :
    (visitedDays r d).Pairwise (· ≤ ·) := by
  unfold visitedDays
  cases d.lastSlice with
  | none => exact List.pairwise_singleton _ _
  | some row =>
      rw [List.pairwise_map]
      have times : (List.range' row.time ((getTodayStart r + 86400 - row.time + 86399) / 86400)
          86400).Pairwise (· < ·) := List.pairwise_lt_range' 86400 (by decide)
      exact times.imp fun less => r.zone.monotone less.le

omit [Libmpdec] [Settings] in
theorem success_map {α β : Type} (x : OptionT Option α) (f : α → β) :
    success (x >>= fun a => pure (f a)) = (success x).map f := by
  rw [success_bind]
  cases success x <;> rfl

/-- A restart that succeeds has loaded the slice and visited the days. -/
theorem initFromDb_eq (log : DayLog statements) (timed : ∀ row ∈ d.history, 0 < row.time) :
    success (initFromDb r d (operlogTable statements) e) =
      (e.atLastSlice d).bind fun base =>
        ((visitedDays r d).foldlM (visit OperLog.id r.apply (datedEntries statements))
          (d.endOperId, base)).map fun state => { state.2 with operlogIdStart := state.1 } := by
  unfold initFromDb
  let finish (state : ℕ × Engine) : Engine := { state.2 with operlogIdStart := state.1 }
  apply (success_map _ finish).trans
  unfold Engine.atLastSlice visitedDays SliceDb.endOperId
  cases last : d.lastSlice with
  | none =>
      rw [Option.getD_none, if_pos rfl, success_loadOperlogFromDb log, Option.bind_some,
        List.foldlM_cons]
      exact congrArg _ (bind_pure _).symm
  | some row =>
      have later : row.time ≠ 0 := (timed row (List.argmax_mem last)).ne'
      rw [Option.getD_some, if_neg later, success_bind]
      show _ = (loadSliceFromDb d row.time (e.resume row)).bind _
      cases loadSliceFromDb d row.time (e.resume row) with
      | none => rfl
      | some base => exact congrArg (Option.map finish) (success_loadDays log _ _ _)

/-- A restart succeeds when there is no gap and the slice and every visited entry
can be loaded. -/
theorem initFromDb_success_iff (log : DayLog statements)
    (timed : ∀ row ∈ d.history, 0 < row.time) :
    success (initFromDb r d (operlogTable statements) e) = some e' ↔ ∃ base last,
      e.atLastSlice d = some base ∧
        NoGap OperLog.id (datedEntries statements) (visitedDays r d) d.endOperId ∧
          (visitedEntries r d statements).foldlM r.apply base = some last ∧
            e' = { last with
              operlogIdStart := d.endOperId + (visitedEntries r d statements).length } := by
  rw [initFromDb_eq log timed]
  simp only [Option.bind_eq_some_iff, Option.map_eq_some_iff, Prod.exists]
  constructor
  · rintro ⟨base, found, number, last, visited, rfl⟩
    rcases (visits_iff log.sorted log.dated_numbers (visitedDays_sorted r d)).mp visited with
      ⟨noGap, rfl, applied⟩
    exact ⟨base, last, found, noGap, applied, rfl⟩
  · rintro ⟨base, last, found, noGap, applied, rfl⟩
    exact ⟨base, found, _, last, (visits_iff log.sorted log.dated_numbers
      (visitedDays_sorted r d)).mpr ⟨noGap, rfl, applied⟩, rfl⟩

omit [Libmpdec] [Settings] in
theorem DayLog.lastFlushed_eq (log : DayLog statements) :
    lastFlushed statements = (datedEntries statements).length := by
  have length : (statements.flatMap LogStatement.rows).length =
      (datedEntries statements).length := by
    rw [← datedEntries_snd, List.length_map]
  have numbers := congrArg List.getLast? log.numbers
  rw [List.getLast?_map, List.getLast?_range'] at numbers
  unfold lastFlushed lastKey
  rw [numbers, ← length]
  split
  · rename_i empty
    exact empty.symm
  · rename_i some_
    show 1 + (statements.flatMap LogStatement.rows).length - 1 = _
    omega

omit [Libmpdec] [Settings] in
/-- The entries past the slice are visited when there is no gap and the last of
them is. -/
theorem visitedEntries_of_last (log : DayLog statements)
    (noGap : NoGap OperLog.id (datedEntries statements) (visitedDays r d) d.endOperId)
    (all : lastFlushed statements ≤ d.endOperId ∨ ∃ a ∈ datedEntries statements,
      a.2.id = lastFlushed statements ∧ a.1 ∈ visitedDays r d) :
    visitedEntries r d statements = entriesPast statements d.endOperId := by
  unfold visitedEntries entriesPast rowsAfter selected
  rw [← datedEntries_snd, List.filter_map]
  congr 1
  apply List.filter_congr
  intro a here
  rw [Bool.eq_iff_iff, Function.comp_apply, decide_eq_true_eq, decide_eq_true_eq]
  constructor
  · exact fun both => both.1
  intro past
  have number : a.2.id ∈ (datedEntries statements).map fun a => a.2.id := List.mem_map_of_mem here
  rw [log.dated_numbers, List.mem_range'_1, ← log.lastFlushed_eq] at number
  refine ⟨past, ?_⟩
  rcases all with nothing | ⟨b, there, last, visited⟩
  · omega
  · by_cases same : a.2.id = b.2.id
    · rw [log.sorted.key_injective here there same]
      exact visited
    · exact noGap a here b there past (by omega) visited

omit [Libmpdec] [Settings] in
/-- The number of the last entry that is loaded. -/
theorem visited_last (log : DayLog statements)
    (noGap : NoGap OperLog.id (datedEntries statements) (visitedDays r d) d.endOperId) :
    (d.endOperId + (visitedEntries r d statements).length =
        max d.endOperId (lastFlushed statements)) ↔
      (lastFlushed statements ≤ d.endOperId ∨ ∃ a ∈ datedEntries statements,
        a.2.id = lastFlushed statements ∧ a.1 ∈ visitedDays r d) := by
  have numbers := (selected_numbers_iff log.sorted log.dated_numbers).mpr noGap
  have number (n : ℕ) : (∃ a ∈ datedEntries statements, d.endOperId < a.2.id ∧
      a.1 ∈ visitedDays r d ∧ a.2.id = n) ↔
        d.endOperId < n ∧ n ≤ d.endOperId + (visitedEntries r d statements).length := by
    have counted : n ∈ (visitedEntries r d statements).map OperLog.id ↔
        d.endOperId < n ∧ n ≤ d.endOperId + (visitedEntries r d statements).length := by
      unfold visitedEntries
      rw [numbers, List.mem_range'_1]
      omega
    rw [← counted, visitedEntries, List.map_map, List.mem_map]
    simp only [mem_selected, Function.comp_apply, and_assoc]
  have below {a : Day × OperLog} (here : a ∈ datedEntries statements) :
      a.2.id ≤ lastFlushed statements := by
    have inside : a.2.id ∈ (datedEntries statements).map fun a => a.2.id := List.mem_map_of_mem here
    rw [log.dated_numbers, List.mem_range'_1, ← log.lastFlushed_eq] at inside
    omega
  have most : d.endOperId + (visitedEntries r d statements).length ≤
      max d.endOperId (lastFlushed statements) := by
    by_cases empty : (visitedEntries r d statements).length = 0
    · omega
    · rcases (number _).mpr ⟨by omega, le_rfl⟩ with ⟨a, here, _, _, last⟩
      have bound := below here
      omega
  constructor
  · intro last
    by_cases nothing : lastFlushed statements ≤ d.endOperId
    · exact Or.inl nothing
    · rcases (number (lastFlushed statements)).mpr ⟨by omega, by omega⟩ with
        ⟨a, here, _, visited, same⟩
      exact Or.inr ⟨a, here, same, visited⟩
  · rintro (nothing | ⟨a, here, last, visited⟩)
    · omega
    · by_cases past : d.endOperId < a.2.id
      · have bound := ((number _).mp ⟨a, here, past, visited, rfl⟩).2
        omega
      · omega

/-- A restart that does not fail recovers the whole log precisely if the day of
the last entry is loaded, unless nothing was flushed past the slice. -/
theorem recoversAll_iff (log : DayLog statements) (timed : ∀ row ∈ d.history, 0 < row.time) :
    RecoversAll r d statements e ↔ LogCovered r d statements e := by
  constructor
  · intro recovers
    by_contra uncovered
    simp only [LogCovered, not_or, not_not, not_forall] at uncovered
    rcases uncovered with ⟨flushed, unvisited, noGap, base, found, applied⟩
    rcases Option.ne_none_iff_exists'.mp applied with ⟨last, applied⟩
    have succeeds := (initFromDb_success_iff log timed).mpr
      ⟨base, last, found, noGap, applied, rfl⟩
    rcases recovers _ succeeds with ⟨base', last', _, _, same⟩
    have number : d.endOperId + (visitedEntries r d statements).length =
        max d.endOperId (lastFlushed statements) := congrArg Engine.operlogIdStart same
    rcases (visited_last log noGap).mp number with nothing | visited
    · exact flushed nothing
    · exact unvisited visited
  · intro covered e' succeeds
    rcases (initFromDb_success_iff log timed).mp succeeds with
      ⟨base, last, found, noGap, applied, rfl⟩
    have all : lastFlushed statements ≤ d.endOperId ∨ ∃ a ∈ datedEntries statements,
        a.2.id = lastFlushed statements ∧ a.1 ∈ visitedDays r d := by
      rcases covered with nothing | visited | gap | refused
      · exact Or.inl nothing
      · exact Or.inr visited
      · exact absurd noGap gap
      · rw [refused base found] at applied
        cases applied
    refine ⟨base, last, found, ?_, ?_⟩
    · rw [← visitedEntries_of_last log noGap all]
      exact applied
    · rw [(visited_last log noGap).mpr all]

end Init

section Small

attribute [local instance] smallSettings Libmpdec.reference

/-- A zone without clock changes. -/
def smallZone : TimeZone where
  date time := time / 86400
  mktime day := day * 86400
  monotone _ _ le := Nat.div_le_div_right le

/-- A restart at some time. -/
def smallRestart (now : ℕ) : Restart where
  now := now
  zone := smallZone
  clock _ := 0
  padding _ := 0
  fuel := 10

/-- What the log records of a deposit. -/
def smallDeposit : OperLog where
  id := 1
  createTime := 0
  method := "update_balance"
  params := [.integer 1, .string "BTC", .string "deposit", .integer 1, .string "5", .object []]

/-- The deposit is flushed on the first day. -/
def smallLogged : List LogStatement :=
  [.createTable 0, .insert 0 [smallDeposit]]

/-- No slice has been taken and the engine restarts a day later: the table of the
new day does not exist, and the start succeeds without the deposit. -/
theorem recoversAll_misses : ¬ RecoversAll (smallRestart 86400) .empty smallLogged smallStart := by
  intro recovers
  have succeeds : success (initFromDb (smallRestart 86400) .empty (operlogTable smallLogged)
      smallStart) = some { smallStart.resume ⟨0, 0, 0, 0, 0⟩ with operlogIdStart := 0 } := rfl
  rcases recovers _ succeeds with ⟨base, last, _, _, same⟩
  have number := congrArg Engine.operlogIdStart same
  cases number

/-- The tables after a slice of the small engine, taken on the first day. -/
def dailySlice : SliceDb :=
  (((dumpToDb 60 smallEngine.slice).runAnswered SliceDb.exec .empty).get (by decide +kernel)).2.2

/-- A deposit of the second user, as it is logged. -/
def loggedDeposit (id : ℕ) (amount : String) (businessId : ℤ) : OperLog where
  id := id
  createTime := 0
  method := "update_balance"
  params := [.integer 2, .string "CNY", .string "deposit", .integer businessId, .string amount,
    .object []]

/-- An ask for one unit that the resting bid takes. -/
def loggedAsk : OperLog where
  id := 6
  createTime := 0
  method := "limit_order"
  params := [.integer 1, .string "BTCCNY", .integer Side.ask.code, .string "1", .string "12",
    .string "0.001", .string "0.002", .string "web"]

/-- Four entries are in the slice; one more is flushed on its day, one on the next day and two
on the day after. -/
def dailyLogged : List LogStatement :=
  [.createTable 0, .insert 0 smallEngine.operlog, .insert 0 [loggedDeposit 5 "10" 7],
    .createTable 1, .insert 1 [loggedAsk], .createTable 2,
    .insert 2 [loggedDeposit 7 "2.5" 8, loggedDeposit 8 "1" 9]]

theorem dailyLogged_dayLog : DayLog dailyLogged := by
  constructor
  · simp [dailyLogged, LogStatement.day]
  · decide +kernel

/-- The restart on the third day. -/
def dailyRestart : Restart :=
  smallRestart (2 * 86400 + 50)

/-- The slice, and the entries of the three days. -/
def dailyLast : Engine :=
  ((smallStart.atLastSlice dailySlice).bind fun base =>
    (visitedEntries dailyRestart dailySlice dailyLogged).foldlM dailyRestart.apply base).get
    (by decide +kernel)

/-- It visits the three days and replays the four entries. -/
theorem recoversAll_small : RecoversAll dailyRestart dailySlice dailyLogged smallStart ∧
    visitedDays dailyRestart dailySlice = [0, 1, 2] ∧
    ∃ e', success (initFromDb dailyRestart dailySlice (operlogTable dailyLogged) smallStart) =
        some e' ∧ e'.operlogIdStart = 8 ∧
      e'.world.ledger.holds ⟨2, .available, "CNY"⟩ =
        smallEngine.world.ledger.holds ⟨2, .available, "CNY"⟩ + 13.5 ∧
      e'.world.ledger.holds ⟨2, .freeze, "CNY"⟩ = 0 := by
  have timed : ∀ row ∈ dailySlice.history, 0 < row.time := by
    decide +kernel
  have covered : LogCovered dailyRestart dailySlice dailyLogged smallStart := by
    right
    left
    decide +kernel
  refine ⟨(recoversAll_iff dailyLogged_dayLog timed).mpr covered, by decide +kernel, ?_⟩
  have noGap : NoGap OperLog.id (datedEntries dailyLogged) (visitedDays dailyRestart dailySlice)
      dailySlice.endOperId := by
    unfold NoGap
    decide +kernel
  have loaded : ((smallStart.atLastSlice dailySlice).bind fun base =>
      (visitedEntries dailyRestart dailySlice dailyLogged).foldlM dailyRestart.apply base) =
        some dailyLast :=
    (Option.some_get _).symm
  rcases Option.bind_eq_some_iff.mp loaded with ⟨base, found, applied⟩
  refine ⟨_, (initFromDb_success_iff dailyLogged_dayLog timed).mpr
    ⟨base, dailyLast, found, noGap, applied, rfl⟩, ?_⟩
  decide +kernel

end Small

end ViabtcServer.MatchEngine
