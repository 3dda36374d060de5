import ViabtcServer.MatchEngine.Recovery
import ViabtcServer.MatchEngine.UpdateReplay

/-!
# Back to the last entry that was flushed

A crash takes away the entries that wait in the list of the log or in the queue of its
thread. What lies in the tables is the log of an earlier moment of the run, and a restart
from it leads back to the state of that moment: nothing of a later command is left, and
nothing of an earlier one is missing.
-/

namespace ViabtcServer.MatchEngine

open Decimal Container Network

/-! ## The engine with the writer of its log -/

/-- The engine, the writer of its log and the local date. -/
structure Flushing where
  audited : Audited
  writer : LogWriter
  today : Day

section Rollback

variable [Libmpdec] [Settings] {e₀ e e' : Engine} {h h₀ h' : Audited} {m m' : Flushing}
  {cond : List UpdateArgs → List Json → UpdateArgs → Prop} {known : List UpdateArgs}
  {log rows : List OperLog} {bound : ℕ} {r : Restart} {statements : List LogStatement}

/-- One incident: the engine moves and appends what it logs, the timer of the writer fires on
a date that does not go back, or its thread takes turns. -/
inductive Flushing.Step (cond : List UpdateArgs → List Json → UpdateArgs → Prop) :
    Flushing → Flushing → Prop
  | serve {m : Flushing} {h' : Audited} : Audited.Step cond m.audited h' →
      Flushing.Step cond m { m with
        audited := h'
        writer := (h'.engine.operlog.drop m.audited.engine.operlog.length).foldl
          LogWriter.append m.writer }
  | timer {m : Flushing} {day : Day} {between : List ℕ} : m.today ≤ day →
      Flushing.Step cond m { m with writer := m.writer.onTimer day between, today := day }
  | turn {m : Flushing} (schedule : List ℕ) :
      Flushing.Step cond m { m with writer := m.writer.turns schedule }

/-- A run of both. -/
def Flushing.Run (cond : List UpdateArgs → List Json → UpdateArgs → Prop) :
    Flushing → Flushing → Prop :=
  Relation.ReflTransGen (Flushing.Step cond)

/-- The writer has been given the log of the engine, and its statements are in the order of
their dates. -/
structure Flushing.Sound (m : Flushing) : Prop where
  writer : m.writer.Sound
  appended : m.writer.appended = m.audited.engine.operlog
  days : m.writer.job.added.Pairwise fun s s' => s.day ≤ s'.day
  past : ∀ s ∈ m.writer.job.added, s.day ≤ m.today

omit [Libmpdec] [Settings] in
/-- A statement of today comes last. -/
theorem days_append {added : List LogStatement} {today : Day}
    (days : added.Pairwise fun s s' => s.day ≤ s'.day) (past : ∀ s ∈ added, s.day ≤ today)
    {s : LogStatement} (same : s.day = today) :
    ((added ++ [s]).Pairwise fun s s' => s.day ≤ s'.day) ∧ ∀ s' ∈ added ++ [s], s'.day ≤ today := by
  constructor
  · rw [List.pairwise_append]
    refine ⟨days, List.pairwise_singleton _ _, ?_⟩
    intro first member last single
    rw [List.mem_singleton.mp single, same]
    exact past first member
  · intro s' member
    rcases List.mem_append.mp member with member | member
    · exact past s' member
    · rw [List.mem_singleton.mp member, same]

omit [Libmpdec] [Settings] in
theorem Flushing.Sound.timer (sound : m.Sound) {day : Day} (later : m.today ≤ day)
    (between : List ℕ) :
    Flushing.Sound { m with writer := m.writer.onTimer day between, today := day } := by
  have past : ∀ s ∈ m.writer.job.added, s.day ≤ day := fun s member =>
    (sound.past s member).trans later
  have kept : (m.writer.onTimer day between).appended = m.writer.appended := by
    unfold LogWriter.onTimer
    split <;> rfl
  have statements : ((m.writer.onTimer day between).job.added.Pairwise fun s s' =>
      s.day ≤ s'.day) ∧ ∀ s ∈ (m.writer.onTimer day between).job.added, s.day ≤ day := by
    unfold LogWriter.onTimer
    split
    · unfold LogWriter.flushLog
      rcases days_append sound.days past (s := .createTable day) rfl with ⟨days', past'⟩
      split
      · have same : ((nwJobAdd m.writer.job (.createTable day)).turns between).added =
            m.writer.job.added ++ [.createTable day] := Job.turns_added _ _
        simp only [nwJobAdd] at same ⊢
        rw [same]
        exact days_append days' past' rfl
      · exact days_append sound.days past rfl
    · exact ⟨sound.days, past⟩
  exact ⟨sound.writer.onTimer day between, kept.trans sound.appended, statements.1, statements.2⟩

section Replaying

variable [SpecialValues] [SignedValues]

/-- An incident logs an entry or nothing. -/
theorem Audited.Step.logs (step : Audited.Step ReadsAgain h h') :
    h'.engine.operlog = h.engine.operlog ∨
      ∃ entry, h'.engine.operlog = h.engine.operlog ++ [entry] := by
  cases step with
  | order order run =>
      rcases order_answer order run with rfl | ⟨info, rfl⟩
      · exact Or.inl rfl
      · rcases accepted_replayed order run with ⟨entry, appended, _⟩
        exact Or.inr ⟨entry, appended⟩
  | refused run failed =>
      exact Or.inl (congrArg Engine.operlog (onCmdBalanceUpdate_refused run failed))
  | applied accepts run cond =>
      rcases update_replayed accepts run cond.stored cond.reading with ⟨entry, appended, _⟩
      exact Or.inr ⟨entry, appended⟩
  | timer => exact Or.inl rfl

theorem Flushing.Step.sound (step : Flushing.Step ReadsAgain m m') (sound : m.Sound) :
    m'.Sound := by
  cases step with
  | serve step =>
      rcases step.logs with same | ⟨entry, appended⟩
      · rw [same, List.drop_length]
        exact ⟨sound.writer, sound.appended.trans same.symm, sound.days, sound.past⟩
      · rw [appended, List.drop_left]
        refine ⟨sound.writer.append entry, ?_, sound.days, sound.past⟩
        show m.writer.appended ++ [entry] = _
        rw [sound.appended]
        exact appended.symm
  | timer later => exact sound.timer later _
  | turn schedule =>
      refine ⟨sound.writer.turns schedule, sound.appended, ?_, ?_⟩
      · simpa [LogWriter.turns] using sound.days
      · simpa [LogWriter.turns] using sound.past

/-- In a run the writer is given the log, and the engine runs. -/
theorem Flushing.Run.sound (run : Flushing.Run ReadsAgain m m') (sound : m.Sound) :
    m'.Sound ∧ Audited.Run ReadsAgain m.audited m'.audited := by
  induction run with
  | refl => exact ⟨sound, .refl⟩
  | tail _ step ih =>
      refine ⟨step.sound ih.1, ?_⟩
      cases step with
      | serve step => exact ih.2.tail step
      | timer later => exact ih.2
      | turn schedule => exact ih.2

/-- A log that was shorter is the one of an earlier state. -/
theorem Audited.Run.back (run : Audited.Run ReadsAgain h₀ h) (nothing : h₀.engine.operlog = [])
    (front : rows <+: h.engine.operlog) :
    ∃ h', Audited.Run ReadsAgain h₀ h' ∧ Audited.Run ReadsAgain h' h ∧
      h'.engine.operlog = rows := by
  induction run with
  | refl =>
      rw [nothing] at front
      exact ⟨h₀, .refl, .refl, nothing.trans (List.prefix_nil.mp front).symm⟩
  | @tail middle final run step ih =>
      have earlier (front : rows <+: middle.engine.operlog) : ∃ h', Audited.Run ReadsAgain h₀ h' ∧
          Audited.Run ReadsAgain h' final ∧ h'.engine.operlog = rows := by
        rcases ih front with ⟨h', before, after, same⟩
        exact ⟨h', before, after.tail step, same⟩
      rcases step.logs with same | ⟨entry, appended⟩
      · rw [same] at front
        exact earlier front
      · rw [appended, List.prefix_concat_iff] at front
        rcases front with whole | front
        · exact ⟨_, run.tail step, .refl, appended.trans whole.symm⟩
        · exact earlier front

/-! ## The restart -/

omit [SpecialValues] [SignedValues] in
/-- Entry by entry, a restart replays a log that replays. -/
theorem ReplaysUpdates.applied (replays : ReplaysUpdates e e' known log bound)
    (zero : e.operlogIdStart = 0) (enough : bound ≤ r.fuel) :
    ∃ last, log.map OperLog.id = List.range' 1 log.length ∧ e'.operlogIdStart = log.length ∧
      log.foldlM r.apply e = some last ∧ last.bare = e'.bare := by
  rcases replays.load r.fuel enough r.clock r.padding with ⟨last, folded, agree, _⟩
  have succeeds := congrArg success folded
  rw [success_foldlM, zero] at succeeds
  simp only [success_loadRow] at succeeds
  rcases foldlM_applyNext.mp succeeds with ⟨numbers, count, applied⟩
  rw [Nat.zero_add] at numbers count
  exact ⟨last, numbers, count, applied, agree⟩

omit [SpecialValues] [SignedValues] [Settings] [Libmpdec] in
/-- All entries lie under the date of the restart. -/
theorem visitedEntries_today (logged : DayLog statements)
    (today : ∀ s ∈ statements, s.day = r.zone.date r.now) :
    NoGap OperLog.id (datedEntries statements) (visitedDays r .empty) 0 ∧
      visitedEntries r .empty statements = statements.flatMap LogStatement.rows := by
  have visited : ∀ a ∈ datedEntries statements, a.1 ∈ visitedDays r .empty := by
    intro a member
    rcases List.mem_flatMap.mp member with ⟨s, here, member⟩
    rcases List.mem_map.mp member with ⟨row, _, rfl⟩
    rw [today s here]
    exact List.mem_singleton_self _
  refine ⟨fun a here _ _ _ _ _ => visited a here, ?_⟩
  unfold visitedEntries selected
  rw [← datedEntries_snd, List.filter_eq_self.mpr]
  intro a here
  have number : a.2.id ∈ (datedEntries statements).map fun a => a.2.id := List.mem_map_of_mem here
  rw [logged.dated_numbers, List.mem_range'_1] at number
  have past : SliceDb.endOperId .empty < a.2.id := number.1
  exact decide_eq_true ⟨past, visited a here⟩

/-- Whenever the machine crashes: what was flushed is the log of an earlier state of the run,
and a restart on the same date, before any slice was made, succeeds and leads to that state.
The counters of orders and deals are those of that state too. -/
theorem crash_rolls_back (start : Engine.start = some e₀) {day : Day}
    (run : Flushing.Run ReadsAgain ⟨⟨e₀, []⟩, .init, day⟩ m) :
    ∃ h', Audited.Run ReadsAgain ⟨e₀, []⟩ h' ∧ Audited.Run ReadsAgain h' m.audited ∧
      h'.engine.operlog = m.writer.written ∧
      ∃ bound, ∀ r : Restart, bound ≤ r.fuel →
        (∀ s ∈ m.writer.job.executed, s.day = r.zone.date r.now) →
        ∃ e', success (initFromDb r .empty (operlogTable m.writer.job.executed) e₀) = some e' ∧
          e'.bare = h'.engine.bare ∧ e'.operlogIdStart = h'.engine.operlogIdStart := by
  have fresh : e₀.operlog = [] ∧ e₀.operlogIdStart = 0 ∧ e₀.Filed [] ∧
      e₀.resume ⟨0, 0, 0, 0, 0⟩ = e₀ := by
    unfold Engine.start at start
    split at start
    · cases start
    · rcases Option.map_eq_some_iff.mp start with ⟨markets, _, rfl⟩
      refine ⟨rfl, rfl, ?_, rfl⟩
      intro key found
      exact absurd dictFind_empty found
  rcases fresh with ⟨nothing, zero, filed, itself⟩
  have sound₀ : Flushing.Sound ⟨⟨e₀, []⟩, .init, day⟩ :=
    ⟨.init, nothing.symm, .nil, by simp [LogWriter.init, nwJobCreate]⟩
  rcases run.sound sound₀ with ⟨sound, lived⟩
  -- the one thread has executed the statements that were added first
  have job := sound.writer.job
  have first : m.writer.job.executed <+: m.writer.job.added := by
    rw [job.queue, job.single sound.writer.thread, List.append_assoc]
    exact List.prefix_append _ _
  have front : m.writer.written <+: m.audited.engine.operlog := by
    rcases first with ⟨rest, added⟩
    rw [← sound.appended, sound.writer.entries, ← added, List.flatMap_append, List.append_assoc]
    exact List.prefix_append _ _
  rcases lived.back nothing front with ⟨h', before, after, same⟩
  rcases ReplaysUpdates.run filed before with ⟨log, bound, replays⟩
  have whole : log = m.writer.written := by
    have operlog := replays.operlog
    rw [nothing, List.nil_append] at operlog
    exact operlog.symm.trans same
  subst whole
  refine ⟨h', before, after, same, bound, ?_⟩
  intro r enough today
  rcases replays.applied zero enough with ⟨last, numbers, count, applied, agree⟩
  have logged : DayLog m.writer.job.executed := ⟨sound.days.sublist first.sublist, numbers⟩
  rcases visitedEntries_today logged today with ⟨noGap, all⟩
  refine ⟨_, (initFromDb_success_iff logged (by simp [SliceDb.empty])).mpr
    ⟨e₀, last, congrArg some itself, noGap, ?_, rfl⟩, agree, ?_⟩
  · rw [all]
    exact applied
  · rw [all, count]
    exact Nat.zero_add _

end Replaying

end Rollback

section Small

attribute [local instance] smallSettings Libmpdec.reference

/-- The deposit is served, flushed and written. -/
def servedOnce : Flushing where
  audited := ⟨deposited "0.12345678", [fineArgs]⟩
  writer := ((deposited "0.12345678").operlog.drop smallStart.operlog.length).foldl
    LogWriter.append .init
  today := 0

def flushedOnce : Flushing :=
  { servedOnce with writer := servedOnce.writer.onTimer 0 [] }

def writtenOnce : Flushing :=
  { flushedOnce with writer := flushedOnce.writer.turns [0, 0, 0, 0, 0, 0, 0, 0] }

/-- A crash after the entry was written loses nothing. -/
theorem crash_rolls_back_small : writtenOnce.writer.written.length = 1 ∧
    ∃ h', Audited.Run ReadsAgain ⟨smallStart, []⟩ h' ∧
      h'.engine.operlog = writtenOnce.writer.written ∧
      ∃ bound, ∀ r : Restart, bound ≤ r.fuel →
        (∀ s ∈ writtenOnce.writer.job.executed, s.day = r.zone.date r.now) →
        ∃ e', success (initFromDb r .empty (operlogTable writtenOnce.writer.job.executed)
          smallStart) = some e' ∧ e'.bare = h'.engine.bare := by
  have special : SpecialValues := specialValues_reference
  have signed : SignedValues := signedValues_reference
  have run : Flushing.Run ReadsAgain ⟨⟨smallStart, []⟩, .init, 0⟩ writtenOnce := by
    have served : Flushing.Run ReadsAgain ⟨⟨smallStart, []⟩, .init, 0⟩ servedOnce :=
      .single (.serve depositOf_step)
    have flushed : Flushing.Run ReadsAgain ⟨⟨smallStart, []⟩, .init, 0⟩ flushedOnce :=
      served.tail (.timer le_rfl)
    exact flushed.tail (.turn _)
  refine ⟨by decide +kernel, ?_⟩
  rcases crash_rolls_back smallStart_eq run with ⟨h', before, _, same, bound, restarts⟩
  refine ⟨h', before, same, bound, ?_⟩
  intro r enough today
  rcases restarts r enough today with ⟨e', succeeds, agree, _⟩
  exact ⟨e', succeeds, agree⟩

end Small

end ViabtcServer.MatchEngine
