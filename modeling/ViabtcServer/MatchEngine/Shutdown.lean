import ViabtcServer.MatchEngine.Writers

/-!
# Shutting down

`fini_operlog` and `fini_history` hand over what is left, sleep for a tenth of a
second and release their pools. A thread tests `shutdown` before it looks at the
queue, so that what is still queued then is never executed.
-/

namespace ViabtcServer.MatchEngine

open Container Network

/-- Every statement handed over has been executed once, in order where there is
one thread, and everything appended has been written. -/
structure NothingLost (log : LogWriter) (history : HistoryWriter) : Prop where
  logStatements : log.job.executed = log.job.added
  historyStatements : history.job.Drained
  entries : log.written = log.appended
  rows : history.written.Perm history.appended

variable {log : LogWriter} {history : HistoryWriter} {today : Day}
  {between sleep joining sleep' joining' : List ℕ} {between' : HistoryKey → List ℕ}

theorem LogWriter.Sound.beforeRelease (sound : log.Sound) :
    (log.beforeRelease today between sleep).Sound ∧
      (log.beforeRelease today between sleep).list = [] :=
  ⟨(sound.onTimer today between).turns sleep, log.onTimer_list today between⟩

/-- The log: one thread executes in order, and everything appended was handed
over. -/
theorem LogWriter.Sound.finiOperlog_iff (sound : log.Sound)
    (joined : (log.finiOperlog today between sleep joining).job.Joined) :
    ((log.finiOperlog today between sleep joining).job.executed =
        (log.finiOperlog today between sleep joining).job.added ∧
      (log.finiOperlog today between sleep joining).written =
        (log.finiOperlog today between sleep joining).appended) ↔
      (log.beforeRelease today between sleep).job.requests = [] := by
  have before : (log.beforeRelease today between sleep).Sound ∧
      (log.beforeRelease today between sleep).list = [] := sound.beforeRelease
  have drained := Job.released_drained_iff before.1.job joined
  have thread : (log.finiOperlog today between sleep joining).job.workers.length = 1 :=
    (Job.turns_length _ _).trans before.1.thread
  have added : (log.finiOperlog today between sleep joining).job.added =
      (log.beforeRelease today between sleep).job.added := Job.turns_added _ _
  have entries := before.1.entries
  rw [before.2, List.append_nil] at entries
  constructor
  · rintro ⟨executed, _⟩
    apply drained.mp
    exact ⟨List.Perm.of_eq executed, fun _ => executed⟩
  · intro empty
    have executed : (log.finiOperlog today between sleep joining).job.executed =
        (log.finiOperlog today between sleep joining).job.added :=
      (drained.mpr empty).2 thread
    refine ⟨executed, ?_⟩
    rw [LogWriter.written, executed, added, ← entries]
    rfl

/-- The history: everything appended was handed over by the last timer. -/
theorem HistoryWriter.Sound.finiHistory_iff (sound : history.Sound)
    (joined : (history.finiHistory between' sleep' joining').job.Joined) :
    ((history.finiHistory between' sleep' joining').job.Drained ∧
      (history.finiHistory between' sleep' joining').written.Perm
        (history.finiHistory between' sleep' joining').appended) ↔
      (history.beforeRelease between' sleep').job.requests = [] := by
  have before : (history.beforeRelease between' sleep').Sound :=
    (sound.onTimer between').turns sleep'
  have drained := Job.released_drained_iff before.job joined
  have added : (history.finiHistory between' sleep' joining').job.added =
      (history.beforeRelease between' sleep').job.added := Job.turns_added _ _
  have nothing : (history.beforeRelease between' sleep').pending = 0 := rfl
  have rows := before.rows
  rw [nothing, add_zero, Multiset.coe_eq_coe] at rows
  constructor
  · rintro ⟨all, _⟩
    exact drained.mp all
  · intro empty
    have all : (history.finiHistory between' sleep' joining').job.Drained := drained.mpr empty
    refine ⟨all, ?_⟩
    have executed := all.1
    rw [added] at executed
    exact (executed.flatMap_right _).trans rows.symm

/-- After both have returned nothing is lost precisely if both queues were empty
when their pools were released: whatever was appended and flushed before, and in
whatever order the threads take their turns. -/
theorem shutdown_iff {historyThread : ℕ} {logEvents : List LogEvent}
    {historyEvents : List HistoryEvent} (started : log = LogWriter.init.run logEvents)
    (started' : history = (HistoryWriter.init historyThread).run historyEvents)
    (joined : (log.finiOperlog today between sleep joining).job.Joined)
    (joined' : (history.finiHistory between' sleep' joining').job.Joined) :
    NothingLost (log.finiOperlog today between sleep joining)
        (history.finiHistory between' sleep' joining') ↔
      (log.beforeRelease today between sleep).job.requests = [] ∧
        (history.beforeRelease between' sleep').job.requests = [] := by
  have sound : log.Sound := started ▸ LogWriter.Sound.init.run
  have sound' : history.Sound := started' ▸ (HistoryWriter.Sound.init historyThread).run
  rw [← sound.finiOperlog_iff joined, ← sound'.finiHistory_iff joined']
  constructor
  · intro nothing
    exact ⟨⟨nothing.logStatements, nothing.entries⟩, nothing.historyStatements, nothing.rows⟩
  · rintro ⟨⟨statements, entries⟩, statements', rows⟩
    exact ⟨statements, statements', entries, rows⟩

section Small

/-- The first entry of a log. -/
def smallEntry : OperLog where
  id := 1
  createTime := 0
  method := "cancel_order"
  params := [.integer 1, .string "BTCCNY", .integer 1]

/-- One entry has been appended and flushed, and the thread has taken the first
statement. -/
def smallFlushed : LogWriter :=
  LogWriter.init.run [.append smallEntry, .timer 20240101 [], .turn 0]

/-- The table takes longer to create than the sleep lasts: the entry is in the
queue when the pool is released, and stays there. -/
theorem shutdown_loses :
    (smallFlushed.finiOperlog 20240101 [] [] [0, 0]).job.Joined ∧
      ((HistoryWriter.init 1).finiHistory (fun _ => []) [] [0]).job.Joined ∧
      ¬ NothingLost (smallFlushed.finiOperlog 20240101 [] [] [0, 0])
        ((HistoryWriter.init 1).finiHistory (fun _ => []) [] [0]) := by
  refine ⟨Job.joined_of_stopped rfl, Job.joined_of_stopped rfl, ?_⟩
  · intro nothing
    have entries := congrArg List.length nothing.entries
    cases entries

/-- When the thread is done with both statements in time, nothing is lost. -/
theorem shutdown_small :
    NothingLost (smallFlushed.finiOperlog 20240101 [] [0, 0, 0] [0])
      ((HistoryWriter.init 1).finiHistory (fun _ => []) [] [0]) := by
  have started : smallFlushed =
      LogWriter.init.run [.append smallEntry, .timer 20240101 [], .turn 0] := rfl
  have started' : HistoryWriter.init 1 = (HistoryWriter.init 1).run [] := rfl
  exact (shutdown_iff started started' (Job.joined_of_stopped rfl)
    (Job.joined_of_stopped rfl)).mpr ⟨rfl, rfl⟩

end Small

end ViabtcServer.MatchEngine
