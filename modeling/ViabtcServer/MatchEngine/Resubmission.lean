import ViabtcServer.MatchEngine.Lifetime
import ViabtcServer.MatchEngine.Recovery
import ViabtcServer.MatchEngine.Repeat
import ViabtcServer.MatchEngine.Replay

/-!
# Resubmitted updates

A slice has no table for `dict_update`. After a restart the repeat table holds
the updates whose entries were replayed, and only these: an update that a slice
already contains is forgotten, and accepted a second time.
-/

namespace ViabtcServer.MatchEngine

open Decimal Container Sql

/-- An update that went through, with what its key picked up, the time and the
number of its entry in the log. -/
structure Applied where
  args : UpdateArgs
  padding : ℕ
  time : Time
  number : ℕ

/-- The machine the engine runs on: the entries executed before the last restart,
the database with the children that write slices, the time of the last incident
and, as a ghost, every update that went through. -/
structure Host where
  engine : Engine
  flushed : List OperLog
  slices : System SliceQuery SliceAnswer SliceDb ℕ
  applied : List Applied
  now : Time

/-- Every entry of the log so far. -/
def Host.log (h : Host) : List OperLog :=
  h.flushed ++ h.engine.operlog

section Host

variable [Libmpdec] [Settings] {e₀ e e' : Engine} {h h₀ h' : Host} {u : Applied} {now : Time}
  {padding fuel keeptime : ℕ} {params : List Json} {reply : Reply} {a b : UpdateArgs}
  {target : UpdateKey} {row : OperLog} {r : Restart} {allowed : Host → Restart → Prop}

/-! ## What happens to a host -/

/-- One incident. A child of `make_slice` copies the engine when it is forked and
then takes its turns, fails or dies. A restart loses no entry of the log;
`allowed` tells which restarts there are. -/
inductive Host.Step (e₀ : Engine) (keeptime : ℕ) (allowed : Host → Restart → Prop) :
    Host → Host → Prop
  | order {h : Host} {now : Time} {fuel : ℕ} {command : Command} {reply : Reply} {e' : Engine} :
      h.now ≤ now → command.IsOrder → h.engine.handle now fuel command = some (reply, e') →
      Host.Step e₀ keeptime allowed h { h with engine := e', now := now }
  | refused {h : Host} {now : Time} {padding : ℕ} {params : List Json} {reply : Reply}
      {e' : Engine} : h.now ≤ now →
      onCmdBalanceUpdate now padding h.engine params = (reply, e') → reply ≠ .success →
      Host.Step e₀ keeptime allowed h { h with engine := e', now := now }
  | applied {h : Host} {now : Time} {padding : ℕ} {params : List Json} {a : UpdateArgs}
      {e' : Engine} : h.now ≤ now → AcceptsUpdate params a →
      onCmdBalanceUpdate now padding h.engine params = (.success, e') →
      Host.Step e₀ keeptime allowed h { h with
        engine := e'
        applied := h.applied ++ [⟨a, padding, now, e'.operlogIdStart⟩]
        now := now }
  | timer {h : Host} {now : Time} : h.now ≤ now →
      Host.Step e₀ keeptime allowed h { h with engine := updateOnTimer now h.engine, now := now }
  | slice {h : Host} {slices : System SliceQuery SliceAnswer SliceDb ℕ} :
      SystemStep SliceDb.exec
        (fun _ time child => child = makeSlice keeptime time h.engine.slice) (fun _ _ => True)
        (fun _ => True) h.slices slices →
      Host.Step e₀ keeptime allowed h { h with slices := slices }
  | restart {h : Host} {now : Time} {r : Restart} {statements : List LogStatement} {e' : Engine} :
      h.now ≤ now → (∀ row, h.now ≤ r.clock row ∧ r.clock row ≤ now) → allowed h r →
      statements.flatMap LogStatement.rows = h.log →
      RecoversAll r h.slices.db statements e₀ →
      success (initFromDb r h.slices.db (operlogTable statements) e₀) = some e' →
      Host.Step e₀ keeptime allowed h
        { h with engine := e', flushed := h.log, now := now }

/-- A run of a host. -/
def Host.Run (e₀ : Engine) (keeptime : ℕ) (allowed : Host → Restart → Prop) : Host → Host → Prop :=
  Relation.ReflTransGen (Host.Step e₀ keeptime allowed)

/-- The restart replays every update of the last day: its entry is past the
slice, its asset is not skipped, and the key picks up the same gap as before. -/
def Host.Replayable (h : Host) (r : Restart) : Prop :=
  ∀ u ∈ h.applied, h.now ≤ u.time + repeatWindow →
    h.slices.db.endOperId < u.number ∧ 0 ≤ assetPrec u.args.asset ∧
      ∀ row ∈ h.log, row.id = u.number → r.padding row = u.padding

/-- An update takes effect at most once in a day: submitted again, it is refused
as a repeat and changes nothing. -/
def Host.RefusesRepeats (h : Host) : Prop :=
  ∀ u ∈ h.applied, ∀ {params : List Json} {b : UpdateArgs} {now : Time} {padding : ℕ},
    AcceptsUpdate params b → u.args.SameUpdate b → padding = u.padding → h.now ≤ now →
      now < u.time + repeatWindow →
        onCmdBalanceUpdate now padding h.engine params = (.error 10 "repeat update", h.engine)

/-! ## The table -/

/-- The table holds the key, with a time that is not before `time`. -/
def Engine.Remembers (e : Engine) (target : UpdateKey) (time : Time) : Prop :=
  ∃ created, dictFind e.updates target = some created ∧ time ≤ created

omit [Libmpdec] [Settings] in
theorem Engine.Remembers.of_eq {time : Time} (remembers : e.Remembers target time)
    (same : e'.updates = e.updates) : e'.Remembers target time := by
  unfold Engine.Remembers
  rw [same]
  exact remembers

omit [Libmpdec] [Settings] in
/-- A new entry is not older. -/
theorem Engine.Remembers.replace {time : Time} {key : UpdateKey}
    (remembers : e.Remembers target time) (late : time ≤ now)
    (added : e'.updates = dictReplace e.updates key now) : e'.Remembers target time := by
  unfold Engine.Remembers
  rw [added]
  by_cases same : target = key
  · rw [same, dictFind_replace]
    exact ⟨now, rfl, late⟩
  · rw [dictFind_replace_ne same]
    exact remembers

/-- Replaying an entry forgets nothing. -/
theorem loadOper_remembers {method : String} {time : Time} (remembers : e.Remembers target time)
    (run : loadOper now fuel padding e method params = some (some e')) :
    e'.Remembers target time := by
  unfold loadOper at run
  split at run
  · rcases loadUpdateBalance_cases (Option.some.inj run) with
      rfl | ⟨_, _, _, _, _, a, rfl, _, _, changed⟩
    · exact remembers
    · rcases updateUserBalance_cases false now padding e a with
        repeated | refused | ⟨_, _, _, _, unknown, _, updated⟩
      · cases repeated.symm.trans changed
      · cases refused.symm.trans changed
      · obtain ⟨_, rfl⟩ := Prod.mk.inj (updated.symm.trans changed)
        rcases remembers with ⟨created, found, late⟩
        refine ⟨created, ?_, late⟩
        have differ : target ≠ updateKey padding a.userId a.asset a.business a.businessId := by
          rintro rfl
          rw [unknown] at found
          cases found
        rw [dictFind_replace_ne differ]
        exact found
  split at run
  · rcases loadLimitOrder_cases run with rfl | ⟨_, _, _, _, _, rfl⟩
    · exact remembers
    · exact remembers.of_eq rfl
  split at run
  · rcases loadMarketOrder_cases run with rfl | ⟨_, _, _, _, _, _, rfl⟩
    · exact remembers
    · exact remembers.of_eq rfl
  split at run
  · rcases loadCancelOrder_cases (Option.some.inj run) with rfl | ⟨_, _, _, _, _, rfl⟩
    · exact remembers
    · exact remembers.of_eq rfl
  · cases run

/-- The entry an update leaves in the log. -/
structure Applied.Logged (u : Applied) (row : OperLog) : Prop where
  id : row.id = u.number
  method : row.method = "update_balance"
  params : ∃ user id change, row.params =
      u.args.logged (.integer user) (.string u.args.business) (.integer id) change ∧
    u.args.userId = toUint32 user ∧ u.args.businessId = toUint64 id

/-- Replaying the entry of an update puts its key in the table. -/
theorem Applied.Logged.replayed (logged : u.Logged row) (known : 0 ≤ assetPrec u.args.asset)
    (run : loadOper now fuel u.padding e row.method row.params = some (some e')) :
    e'.Remembers (u.args.key u.padding) now := by
  rcases logged.params with ⟨user, id, change, params, userId, businessId⟩
  rw [logged.method, params] at run
  unfold UpdateArgs.logged loadOper loadUpdateBalance at run
  simp only [if_pos, if_neg (not_lt.mpr known), Option.some.injEq] at run
  split at run
  · cases run
  rename_i a read
  rcases readUpdateArgs_eq_ok.mp read with
    ⟨_, _, sameUser, user', sameAsset, sameBusiness, sameId, id', _, _⟩
  obtain rfl := Json.integer.inj sameUser
  obtain rfl := Json.integer.inj sameId
  have key : updateKey u.padding a.userId a.asset a.business a.businessId =
      u.args.key u.padding := by
    unfold UpdateArgs.key
    rw [user', id', ← userId, ← businessId, ← Json.string.inj sameAsset,
      ← Json.string.inj sameBusiness]
  rcases updateUserBalance_cases false now u.padding e a with
    repeated | refused | ⟨_, _, _, _, _, _, updated⟩
  · rw [repeated] at run
    cases run
  · rw [refused] at run
    cases run
  · rw [updated] at run
    obtain rfl := Option.some.inj run
    refine ⟨now, ?_, le_rfl⟩
    rw [key]
    exact dictFind_replace

/-- So does replaying a log with that entry. -/
theorem Applied.Logged.recovered (logged : u.Logged row) (known : 0 ≤ assetPrec u.args.asset)
    (gap : r.padding row = u.padding) (late : u.time ≤ r.clock row) {entries : List OperLog}
    (member : row ∈ entries) (run : entries.foldlM r.apply e = some e') :
    e'.Remembers (u.args.key u.padding) u.time := by
  -- what follows the entry forgets nothing
  have kept (rest : List OperLog) : ∀ e : Engine, e.Remembers (u.args.key u.padding) u.time →
      rest.foldlM r.apply e = some e' → e'.Remembers (u.args.key u.padding) u.time := by
    induction rest with
    | nil =>
        intro e remembers run
        obtain rfl := Option.some.inj run
        exact remembers
    | cons next rest ih =>
        intro e remembers run
        rw [List.foldlM_cons, Option.bind_eq_bind, Option.bind_eq_some_iff] at run
        rcases run with ⟨middle, first, run⟩
        exact ih middle (loadOper_remembers remembers (Option.join_eq_some_iff.mp first)) run
  induction entries generalizing e with
  | nil => cases member
  | cons next rest ih =>
      rw [List.foldlM_cons, Option.bind_eq_bind, Option.bind_eq_some_iff] at run
      rcases run with ⟨middle, first, run⟩
      rcases List.mem_cons.mp member with rfl | later
      · have own := Option.join_eq_some_iff.mp first
        rw [gap] at own
        rcases logged.replayed known own with ⟨created, found, after⟩
        exact kept rest middle ⟨created, found, late.trans after⟩ run
      · exact ih later run

/-! ## Runs -/

/-- What a host keeps of the updates that went through. -/
structure Host.Keeps (h : Host) : Prop where
  past : ∀ u ∈ h.applied, u.time ≤ h.now
  logged : ∀ u ∈ h.applied, ∃ row ∈ h.log, u.Logged row
  table : ∀ u ∈ h.applied, h.now ≤ u.time + repeatWindow →
    h.engine.Remembers (u.args.key u.padding) u.time

omit [Libmpdec] [Settings] in
/-- Time passes and the log grows. -/
theorem Host.Keeps.later (keeps : h.Keeps) (now : h.now ≤ h'.now) (applied : h'.applied = h.applied)
    (log : ∀ row ∈ h.log, row ∈ h'.log)
    (table : ∀ u ∈ h.applied, h'.now ≤ u.time + repeatWindow →
      h.engine.Remembers (u.args.key u.padding) u.time →
        h'.engine.Remembers (u.args.key u.padding) u.time) : h'.Keeps where
  past u member := by
    rw [applied] at member
    exact (keeps.past u member).trans now
  logged u member := by
    rw [applied] at member
    rcases keeps.logged u member with ⟨row, present, logged⟩
    exact ⟨row, log row present, logged⟩
  table u member young := by
    rw [applied] at member
    exact table u member young (keeps.table u member (now.trans young))

/-- What a successful update does to the engine. -/
theorem onCmdBalanceUpdate_success (accepts : AcceptsUpdate params a)
    (run : onCmdBalanceUpdate now padding e params = (.success, e')) :
    e'.updates = dictReplace e.updates (a.key padding) now ∧
      ∃ row, e'.operlog = e.operlog ++ [row] ∧
        Applied.Logged ⟨a, padding, now, e'.operlogIdStart⟩ row := by
  have stored := (accepts.handled run).2.2.1 rfl
  rcases onCmdBalanceUpdate_cases run with
    ⟨⟨_, _, refused⟩, _⟩ | ⟨user, business, businessId, change, detail, a', e₁, params', _, read,
      changed, _, rfl⟩
  · cases refused
  rcases accepts with ⟨user', business', businessId', change', detail', rfl, known, read'⟩
  simp only [List.cons.injEq, Json.string.injEq, and_true] at params'
  rcases params' with ⟨rfl, asset, rfl, rfl, rfl, rfl⟩
  rw [← asset, read'] at read
  obtain rfl := Except.ok.inj read
  refine ⟨stored, ⟨e₁.operlogIdStart + 1, now, "update_balance",
    a.logged user' business' businessId' change'⟩, ?_, rfl, rfl, ?_⟩
  · rcases updateUserBalance_cases true now padding e a with
      repeated | refused | ⟨_, _, _, _, _, _, updated⟩
    · cases repeated.symm.trans changed
    · cases refused.symm.trans changed
    · obtain ⟨_, rfl⟩ := Prod.mk.inj (updated.symm.trans changed)
      rfl
  · rcases readUpdateArgs_eq_ok.mp read' with ⟨userId, id, rfl, user, _, rfl, rfl, business, _, _⟩
    exact ⟨userId, id, _, rfl, user, business⟩

omit [Libmpdec] [Settings] in
theorem Host.mem_log_of_operlog {rows : List OperLog}
    (appended : e'.operlog = h.engine.operlog ++ rows) (same : h'.engine = e')
    (flushed : h'.flushed = h.flushed) :
    ∀ row ∈ h.log, row ∈ h'.log := by
  intro row member
  unfold Host.log at member ⊢
  rw [same, appended, flushed, ← List.append_assoc]
  exact List.mem_append_left _ member

theorem Host.Step.keeps (step : Host.Step e₀ keeptime Host.Replayable h h') (keeps : h.Keeps) :
    h'.Keeps := by
  cases step with
  | @order now fuel command reply e' later order run =>
      have rows : ∃ rows, e'.operlog = h.engine.operlog ++ rows := by
        rcases order_answer order run with rfl | ⟨info, rfl⟩
        · exact ⟨[], (List.append_nil _).symm⟩
        · rcases accepted_replayed order run with ⟨entry, appended, _⟩
          exact ⟨[entry], appended⟩
      rcases rows with ⟨rows, appended⟩
      refine keeps.later later rfl (Host.mem_log_of_operlog appended rfl rfl) ?_
      intro u _ _ remembers
      apply remembers.of_eq
      apply handle_updates ?_ run
      rintro padding params rfl
      exact order
  | @refused now padding params reply e' later run failed =>
      obtain rfl := onCmdBalanceUpdate_refused run failed
      exact keeps.later later rfl (fun _ member => member) fun _ _ _ remembers => remembers
  | @applied now padding params a e' later accepts run =>
      rcases onCmdBalanceUpdate_success accepts run with ⟨stored, row, appended, logged⟩
      have before : Host.Keeps { h with engine := e', now := now } := by
        refine keeps.later later rfl (Host.mem_log_of_operlog appended rfl rfl) ?_
        intro u member _ remembers
        exact remembers.replace ((keeps.past u member).trans later) stored
      constructor
      · intro u member
        rcases List.mem_append.mp member with old | new
        · exact before.past u old
        · obtain rfl := List.mem_singleton.mp new
          exact le_rfl
      · intro u member
        rcases List.mem_append.mp member with old | new
        · exact before.logged u old
        · obtain rfl := List.mem_singleton.mp new
          refine ⟨row, ?_, logged⟩
          unfold Host.log
          rw [appended]
          simp
      · intro u member young
        rcases List.mem_append.mp member with old | new
        · exact before.table u old young
        · obtain rfl := List.mem_singleton.mp new
          refine ⟨now, ?_, le_rfl⟩
          rw [stored]
          exact dictFind_replace
  | @timer now later =>
      refine keeps.later later rfl (fun _ member => member) ?_
      rintro u _ young ⟨created, found, late⟩
      refine ⟨created, ?_, late⟩
      rw [updateOnTimer_keeps, found]
      intro created' found'
      rw [found] at found'
      obtain rfl := Option.some.inj found'
      exact young.trans (Nat.add_le_add_right late _)
  | slice turn =>
      exact keeps.later le_rfl rfl (fun _ member => member) fun _ _ _ remembers => remembers
  | @restart now r statements e' later clock replayable rows recovers run =>
      refine keeps.later later rfl (fun _ member => List.mem_append_left _ member) ?_
      intro u member young _
      rcases keeps.logged u member with ⟨row, present, logged⟩
      rcases replayable u member (later.trans young) with ⟨past, known, gap⟩
      rcases recovers e' run with ⟨base, last, _, applied, rfl⟩
      have replayed : row ∈ entriesPast statements h.slices.db.endOperId := by
        unfold entriesPast rowsAfter
        rw [rows, List.mem_filter]
        refine ⟨present, ?_⟩
        rw [logged.id]
        exact decide_eq_true past
      have late := (keeps.past u member).trans (clock row).1
      exact (logged.recovered known (gap row present logged.id) late replayed applied).of_eq rfl

theorem Host.Run.keeps (run : Host.Run e₀ keeptime Host.Replayable h₀ h) (keeps : h₀.Keeps) :
    h.Keeps := by
  induction run with
  | refl => exact keeps
  | tail _ step ih => exact step.keeps ih

/-- The children take turns while the engine waits. -/
theorem Host.slices_run {slices : System SliceQuery SliceAnswer SliceDb ℕ}
    (run : Relation.ReflTransGen (SystemStep SliceDb.exec
      (fun _ time child => child = makeSlice keeptime time h.engine.slice) (fun _ _ => True)
      (fun _ => True)) h.slices slices) :
    Host.Run e₀ keeptime allowed h { h with slices := slices } := by
  induction run with
  | refl => exact .refl
  | tail _ step ih => exact ih.tail (.slice step)

/-- However commands, timers, slices, crashes and restarts follow each other: as
long as every restart replays the updates of the last day, none of them takes
effect twice. -/
theorem applied_once (untouched : h₀.applied = [])
    (run : Host.Run e₀ keeptime Host.Replayable h₀ h) : h.RefusesRepeats := by
  have none_ : h₀.Keeps := by
    constructor <;> simp [untouched]
  intro u member params b now padding accepts same gap later young
  rcases (run.keeps none_).table u member (later.trans young.le) with ⟨created, found, _⟩
  cases answer : onCmdBalanceUpdate now padding h.engine params with
  | mk reply e' =>
      rcases accepts.handled answer with ⟨repeated, _, _, unchanged⟩
      have key : b.key padding = u.args.key u.padding := by
        rcases same with ⟨user, asset, business, id⟩
        unfold UpdateArgs.key
        rw [gap, user, asset, business, id]
      have refused : reply = .error 10 "repeat update" := by
        rw [repeated, key, found]
        simp
      rw [refused, unchanged (by rw [refused]; simp)]

end Host

section Small

attribute [local instance] smallSettings Libmpdec.reference

/-- The small engine with an empty database. -/
def smallHost : Host where
  engine := smallStart
  flushed := []
  slices := ⟨.empty, fun _ => none⟩
  applied := []
  now := 0

/-- A deposit under a short name. -/
def shortArgs : UpdateArgs :=
  ⟨1, "BTC", "deposit", 1, Mpd.ofScaled 500000000 (-8), []⟩

theorem shortArgs_accepted : AcceptsUpdate (depositFor "deposit") shortArgs := by
  refine ⟨_, _, _, _, _, rfl, by decide +kernel, readUpdateArgs_eq_ok.mpr ?_⟩
  exact ⟨1, 1, rfl, rfl, rfl, rfl, rfl, rfl, by decide +kernel, rfl⟩

/-- The small engine after the deposit. -/
def shortEngine : Engine :=
  (onCmdBalanceUpdate 0 0 smallStart (depositFor "deposit")).2

theorem shortEngine_eq : onCmdBalanceUpdate 0 0 smallStart (depositFor "deposit") =
    (.success, shortEngine) := by
  have answer : (onCmdBalanceUpdate 0 0 smallStart (depositFor "deposit")).1 = .success := by
    decide +kernel
  exact Prod.ext answer rfl

/-- The host after the deposit. -/
def shortHost : Host :=
  { smallHost with
    engine := shortEngine
    applied := [⟨shortArgs, 0, 0, shortEngine.operlogIdStart⟩] }

theorem shortHost_run (keeptime : ℕ) (allowed : Host → Restart → Prop) :
    Host.Run smallStart keeptime allowed smallHost shortHost := by
  apply Relation.ReflTransGen.single
  exact @Host.Step.applied _ _ _ _ _ smallHost 0 0 _ shortArgs _ le_rfl shortArgs_accepted
    shortEngine_eq

/-- The log of the deposit, flushed on the first day. -/
def shortLogged : List LogStatement :=
  [.createTable 0, .insert 0 shortEngine.operlog]

theorem shortLogged_dayLog : DayLog shortLogged := by
  constructor
  · simp [shortLogged, LogStatement.day]
  · decide +kernel

theorem shortLogged_rows : shortLogged.flatMap LogStatement.rows = shortHost.log := by
  simp [shortLogged, LogStatement.rows, Host.log, shortHost, smallHost]

/-- The dump of the engine after the deposit. -/
def shortDump : List (SliceQuery × Bool) × ℤ × SliceDb :=
  ((dumpToDb 100 shortEngine.slice).runAnswered SliceDb.exec .empty).get (by decide +kernel)

theorem shortDump_run :
    Sql.Run SliceDb.exec (dumpToDb 100 shortEngine.slice) .empty shortDump.1 shortDump.2.1
      shortDump.2.2 :=
  (runAnswered_run (Option.some_get _).symm).1

/-- The engine loaded from that slice. -/
def shortLoaded : Engine :=
  (smallStart.atLastSlice shortDump.2.2).get (by decide +kernel)

/-- After a restart from that slice. -/
def shortAgain : Engine :=
  { shortLoaded with operlogIdStart := shortDump.2.2.endOperId + 0 }

/-- Every entry of the log is in the slice, so none is replayed. -/
theorem shortAgain_recovered :
    RecoversAll (smallRestart 100) shortDump.2.2 shortLogged smallStart ∧
      success (initFromDb (smallRestart 100) shortDump.2.2 (operlogTable shortLogged) smallStart) =
        some shortAgain := by
  have timed : ∀ row ∈ shortDump.2.2.history, 0 < row.time := by decide +kernel
  have sliced : ∀ a ∈ datedEntries shortLogged, ¬ shortDump.2.2.endOperId < a.2.id := by
    decide +kernel
  constructor
  · apply (recoversAll_iff shortLogged_dayLog timed).mpr
    left
    decide +kernel
  · have nothing : visitedEntries (smallRestart 100) shortDump.2.2 shortLogged = [] := by
      apply List.length_eq_zero_iff.mp
      decide +kernel
    apply (initFromDb_success_iff shortLogged_dayLog timed).mpr
    refine ⟨shortLoaded, shortLoaded, (Option.some_get _).symm, ?_, ?_, ?_⟩
    · intro a here b _ past _ _
      exact absurd past (sliced a here)
    · rw [nothing]
      rfl
    · rw [nothing]
      rfl

/-- The slice contains the deposit, and after a restart from it the same deposit
is made again. -/
theorem applied_twice : ¬ ∀ {h : Host},
    Host.Run smallStart 100 (fun _ _ => True) smallHost h → h.RefusesRepeats := by
  intro refuses
  let cleared : SliceClient Unit := clearSlice 100 100 >>= fun _ => pure ()
  let forked : System SliceQuery SliceAnswer SliceDb ℕ :=
    System.put ⟨.empty, fun _ => none⟩ 100 (some (makeSlice 100 100 shortEngine.slice)) .empty
  let sliced : Host :=
    { shortHost with slices := forked.put 100 (some cleared) shortDump.2.2 }
  let again : Host :=
    { sliced with engine := shortAgain, flushed := shortHost.log, now := 0 }
  have dumped : Host.Run smallStart 100 (fun _ _ => True) shortHost sliced := by
    apply Host.slices_run
    apply Relation.ReflTransGen.head (SystemStep.start rfl rfl)
    exact shortDump_run.turns 100 (fun _ => cleared) (fun _ _ _ => trivial) (fun _ _ => trivial)
      forked rfl rfl
  have restarted : Host.Step smallStart 100 (fun _ _ => True) sliced again :=
    @Host.Step.restart _ _ _ _ _ sliced 0 (smallRestart 100) shortLogged shortAgain le_rfl
      (fun _ => ⟨le_rfl, le_rfl⟩) trivial shortLogged_rows shortAgain_recovered.1
      shortAgain_recovered.2
  have run := ((shortHost_run 100 _).trans dumped).tail restarted
  have refused := refuses run ⟨shortArgs, 0, 0, shortEngine.operlogIdStart⟩
    (List.mem_singleton_self _) shortArgs_accepted ⟨rfl, rfl, rfl, rfl⟩ rfl le_rfl
    (by decide : 0 < 0 + repeatWindow)
  have made : (onCmdBalanceUpdate 0 0 shortAgain (depositFor "deposit")).1 = .success := by
    decide +kernel
  rw [refused] at made
  cases made

/-- With no slice the deposit is replayed, and refused afterwards. -/
theorem applied_once_small : ∃ e', success (initFromDb (smallRestart 100) .empty
      (operlogTable shortLogged) smallStart) = some e' ∧
    Host.RefusesRepeats { shortHost with engine := e', flushed := shortHost.log } := by
  have timed : ∀ row ∈ SliceDb.empty.history, 0 < row.time := by decide +kernel
  have succeeds : (success (initFromDb (smallRestart 100) .empty (operlogTable shortLogged)
      smallStart)).isSome := by
    decide +kernel
  rcases Option.isSome_iff_exists.mp succeeds with ⟨e', recovered⟩
  refine ⟨e', recovered, ?_⟩
  have recovers : RecoversAll (smallRestart 100) .empty shortLogged smallStart := by
    apply (recoversAll_iff shortLogged_dayLog timed).mpr
    right
    left
    decide +kernel
  have replayable : shortHost.Replayable (smallRestart 100) := by
    intro u member _
    obtain rfl := List.mem_singleton.mp member
    exact ⟨by decide +kernel, by decide +kernel, fun _ _ _ => rfl⟩
  have restarted : Host.Step smallStart 100 Host.Replayable shortHost
      { shortHost with engine := e', flushed := shortHost.log } :=
    @Host.Step.restart _ _ _ _ _ shortHost 0 (smallRestart 100) shortLogged e' le_rfl
      (fun _ => ⟨le_rfl, le_rfl⟩) replayable shortLogged_rows recovers recovered
  exact applied_once rfl ((shortHost_run 100 _).tail restarted)

end Small

end ViabtcServer.MatchEngine
