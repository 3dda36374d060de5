import Mathlib.Data.List.Perm.Basic
import Mathlib.Data.List.Lattice

/-!
# Thread pools

`nw_job.c`: one queue of requests behind one mutex, and threads that take
requests from its head. A thread between two waits for the mutex is one turn;
which thread makes the next turn is up to the scheduler, and a thread in
`pthread_cond_wait` may wake at any time.
-/

namespace ViabtcServer.Network

/-- Where a thread is. -/
inductive Worker (R : Type) : Type
  /-- About to lock the mutex and look at the queue. -/
  | checking
  /-- In `pthread_cond_wait`. -/
  | waiting
  /-- In `on_job`. -/
  | busy (request : R)
  /-- Returned. -/
  | stopped
  deriving DecidableEq

namespace Worker

variable {R : Type}

/-- The request a thread works on. -/
def request : Worker R → Option R
  | busy r => some r
  | _ => none

end Worker

/-- `nw_job`. The last three fields are ghosts: every request added, every
request taken from the queue and every request `on_job` is done with. -/
structure Job (R : Type) where
  requests : List R
  replies : List R
  shutdown : Bool
  workers : List (Worker R)
  added : List R := []
  taken : List R := []
  executed : List R := []

variable {R : Type}

/-- `nw_job_create`. -/
def nwJobCreate (threadCount : ℕ) : Job R where
  requests := []
  replies := []
  shutdown := false
  workers := List.replicate threadCount .checking

/-- `nw_job_add`. -/
def nwJobAdd (job : Job R) (request : R) : Job R :=
  { job with
    requests := job.requests ++ [request]
    added := job.added ++ [request] }

namespace Job

def setWorker (job : Job R) (thread : ℕ) (worker : Worker R) : Job R :=
  { job with workers := job.workers.set thread worker }

/-- What `thread_routine` does with the mutex locked. -/
def check (job : Job R) (thread : ℕ) : Job R :=
  if job.requests.length = 0 ∧ job.shutdown = false then job.setWorker thread .waiting
  else if job.shutdown = true then job.setWorker thread .stopped
  else
    match job.requests with
    | [] => job
    | entry :: rest =>
        { job.setWorker thread (.busy entry) with
          requests := rest
          taken := job.taken ++ [entry] }

/-- A turn of a thread. -/
def turn (job : Job R) (thread : ℕ) : Job R :=
  match job.workers[thread]? with
  | some .checking => job.check thread
  | some .waiting => job.setWorker thread .checking
  | some (.busy entry) =>
      { job.setWorker thread .checking with
        replies := job.replies ++ [entry]
        executed := job.executed ++ [entry] }
  | some .stopped => job
  | none => job

/-- The first half of `nw_job_release`. -/
def release (job : Job R) : Job R :=
  { job with shutdown := true }

/-- The second half of `nw_job_release` returns when every thread has. -/
def Joined (job : Job R) : Prop :=
  ∀ worker ∈ job.workers, worker = .stopped

/-- Turns of threads in the order of a schedule. -/
def turns (job : Job R) (schedule : List ℕ) : Job R :=
  schedule.foldl turn job

/-- The requests threads work on. -/
def running (job : Job R) : List R :=
  job.workers.filterMap Worker.request

/-- Every request added has been executed once, and in order if there is one
thread. -/
def Drained (job : Job R) : Prop :=
  job.executed.Perm job.added ∧ (job.workers.length = 1 → job.executed = job.added)

/-- Requests are taken in the order they are added; each one taken is executed or
being worked on. -/
structure Sound (job : Job R) : Prop where
  queue : job.added = job.taken ++ job.requests
  taken : job.taken.Perm (job.executed ++ job.running)
  single : job.workers.length = 1 → job.taken = job.executed ++ job.running

variable {job job' : Job R} {thread : ℕ}

/-! ## One turn -/

/-- What a turn can do. -/
inductive Turned (job : Job R) (thread : ℕ) : Job R → Prop
  | idle : Turned job thread job
  /-- To sleep, awake or to its end: no request is touched. -/
  | moved {worker worker' : Worker R} : job.workers[thread]? = some worker →
      worker.request = none → worker'.request = none →
      Turned job thread (job.setWorker thread worker')
  | took {entry : R} {rest : List R} : job.workers[thread]? = some .checking →
      job.shutdown = false → job.requests = entry :: rest → Turned job thread
        { job.setWorker thread (.busy entry) with
          requests := rest
          taken := job.taken ++ [entry] }
  | finished {entry : R} : job.workers[thread]? = some (.busy entry) → Turned job thread
      { job.setWorker thread .checking with
        replies := job.replies ++ [entry]
        executed := job.executed ++ [entry] }

theorem turn_cases (job : Job R) (thread : ℕ) : Turned job thread (job.turn thread) := by
  unfold turn
  split
  · rename_i checking
    unfold check
    split
    · exact .moved checking rfl (by rfl)
    split
    · exact .moved checking rfl (by rfl)
    rename_i live
    split
    · exact .idle
    · rename_i queued
      exact .took checking (Bool.eq_false_iff.mpr live) queued
  · rename_i waiting
    exact .moved waiting rfl (by rfl)
  · rename_i busy
    exact .finished busy
  · exact .idle
  · exact .idle

/-- The list of requests at work when one thread changes. -/
theorem filterMap_set {workers : List (Worker R)} {worker : Worker R} (worker' : Worker R)
    (here : workers[thread]? = some worker) :
    ∃ before after, workers.filterMap Worker.request =
        before ++ worker.request.toList ++ after ∧
      (workers.set thread worker').filterMap Worker.request =
        before ++ worker'.request.toList ++ after := by
  induction workers generalizing thread with
  | nil => cases here
  | cons first rest ih =>
      cases thread with
      | zero =>
          obtain rfl := Option.some.inj here
          refine ⟨[], rest.filterMap Worker.request, ?_, ?_⟩
          · cases first <;> rfl
          · cases worker' <;> rfl
      | succ thread =>
          rcases ih here with ⟨before, after, old, new⟩
          refine ⟨first.request.toList ++ before, after, ?_, ?_⟩
          · rw [List.append_assoc, List.append_assoc, ← List.append_assoc before, ← old]
            cases first <;> rfl
          · rw [List.append_assoc, List.append_assoc, ← List.append_assoc before, ← new]
            cases first <;> rfl

/-- With one thread there is nothing beside it. -/
theorem filterMap_single {workers : List (Worker R)} {worker : Worker R}
    (one : workers.length = 1) (here : workers[thread]? = some worker) :
    workers.filterMap Worker.request = worker.request.toList := by
  rcases List.length_eq_one_iff.mp one with ⟨only, rfl⟩
  cases thread with
  | zero =>
      obtain rfl := Option.some.inj here
      cases only <;> rfl
  | succ thread => cases here

@[simp]
theorem setWorker_length (job : Job R) (thread : ℕ) (worker : Worker R) :
    (job.setWorker thread worker).workers.length = job.workers.length :=
  List.length_set

theorem setWorker_single {worker worker' : Worker R} (one : job.workers.length = 1)
    (here : job.workers[thread]? = some worker) :
    (job.setWorker thread worker').running = worker'.request.toList := by
  have there : (job.setWorker thread worker').workers[thread]? = some worker' := by
    rw [setWorker, List.getElem?_set_self']
    simp [here]
  exact filterMap_single (by simpa using one) there

theorem Turned.sound (turned : Turned job thread job') (sound : job.Sound) : job'.Sound := by
  cases turned with
  | idle => exact sound
  | @moved worker worker' here none_ none' =>
      rcases filterMap_set worker' here with ⟨before, after, old, new⟩
      have same : (job.setWorker thread worker').running = job.running := by
        rw [running, running, setWorker, new, old, none_, none']
      refine ⟨sound.queue, ?_, ?_⟩
      · rw [same]
        exact sound.taken
      · intro one
        rw [same]
        exact sound.single (by simpa using one)
  | @took entry rest here live queued =>
      rcases filterMap_set (.busy entry) here with ⟨before, after, old, new⟩
      constructor
      · show job.added = job.taken ++ [entry] ++ rest
        rw [sound.queue, queued, List.append_assoc, List.singleton_append]
      · show (job.taken ++ [entry]).Perm (job.executed ++ (job.setWorker thread _).running)
        have taken := sound.taken
        rw [running, setWorker, new]
        rw [running, old] at taken
        simp only [Worker.request, Option.toList_none, Option.toList_some, List.append_nil,
          List.append_assoc] at taken ⊢
        refine (taken.append_right _).trans ?_
        simp only [List.append_assoc]
        exact ((List.perm_append_comm).append_left before).append_left job.executed
      · intro one
        have one' : job.workers.length = 1 := by simpa using one
        show job.taken ++ [entry] = job.executed ++ (job.setWorker thread _).running
        rw [setWorker_single one' here, sound.single one', running, filterMap_single one' here]
        simp [Worker.request]
  | @finished entry here =>
      rcases filterMap_set .checking here with ⟨before, after, old, new⟩
      constructor
      · exact sound.queue
      · show job.taken.Perm (job.executed ++ [entry] ++ (job.setWorker thread _).running)
        have taken := sound.taken
        rw [running, setWorker, new]
        rw [running, old] at taken
        simp only [Worker.request, Option.toList_none, Option.toList_some, List.append_nil,
          List.append_assoc] at taken ⊢
        refine taken.trans ?_
        rw [← List.append_assoc before, ← List.append_assoc [entry]]
        exact ((List.perm_append_comm).append_right after).append_left job.executed
      · intro one
        have one' : job.workers.length = 1 := by simpa using one
        show job.taken = job.executed ++ [entry] ++ (job.setWorker thread _).running
        rw [setWorker_single one' here, sound.single one', running, filterMap_single one' here]
        simp [Worker.request]

theorem Sound.turn (sound : job.Sound) (thread : ℕ) : (job.turn thread).Sound :=
  (job.turn_cases thread).sound sound

theorem Sound.add (sound : job.Sound) (request : R) : (nwJobAdd job request).Sound where
  queue := by
    show job.added ++ [request] = job.taken ++ (job.requests ++ [request])
    rw [sound.queue, List.append_assoc]
  taken := sound.taken
  single := sound.single

/-! ## Runs -/

theorem sound_create (threadCount : ℕ) : (nwJobCreate threadCount : Job R).Sound := by
  have idle : (nwJobCreate threadCount : Job R).running = [] := by
    apply List.filterMap_eq_nil_iff.mpr
    intro worker member
    rw [List.eq_of_mem_replicate member]
    rfl
  refine ⟨rfl, ?_, ?_⟩
  · rw [idle]
    rfl
  · intro _
    rw [idle]
    rfl

theorem Sound.turns {schedule : List ℕ} (sound : job.Sound) : (job.turns schedule).Sound := by
  induction schedule generalizing job with
  | nil => exact sound
  | cons thread rest ih => exact ih (sound.turn thread)

theorem Sound.release (sound : job.Sound) : job.release.Sound :=
  ⟨sound.queue, sound.taken, sound.single⟩

/-- What a turn leaves alone. -/
theorem Turned.kept (turned : Turned job thread job') :
    job'.workers.length = job.workers.length ∧ job'.added = job.added ∧
      job'.shutdown = job.shutdown := by
  cases turned with
  | idle => exact ⟨rfl, rfl, rfl⟩
  | moved | took | finished => exact ⟨List.length_set, rfl, rfl⟩

@[simp]
theorem turn_length (job : Job R) (thread : ℕ) :
    (job.turn thread).workers.length = job.workers.length :=
  (job.turn_cases thread).kept.1

@[simp]
theorem turn_added (job : Job R) (thread : ℕ) : (job.turn thread).added = job.added :=
  (job.turn_cases thread).kept.2.1

@[simp]
theorem turn_shutdown (job : Job R) (thread : ℕ) :
    (job.turn thread).shutdown = job.shutdown :=
  (job.turn_cases thread).kept.2.2

@[simp]
theorem turns_length (job : Job R) (schedule : List ℕ) :
    (job.turns schedule).workers.length = job.workers.length := by
  induction schedule generalizing job with
  | nil => rfl
  | cons thread rest ih => exact (ih (job.turn thread)).trans (turn_length job thread)

@[simp]
theorem turns_added (job : Job R) (schedule : List ℕ) :
    (job.turns schedule).added = job.added := by
  induction schedule generalizing job with
  | nil => rfl
  | cons thread rest ih => exact (ih (job.turn thread)).trans (turn_added job thread)

/-- Once the pool shuts down, no request leaves the queue. -/
theorem Turned.of_shutdown (turned : Turned job thread job') (down : job.shutdown = true) :
    job'.requests = job.requests := by
  cases turned with
  | idle | moved | finished => rfl
  | took here live =>
      rw [down] at live
      cases live

theorem turns_of_shutdown (schedule : List ℕ) (down : job.shutdown = true) :
    (job.turns schedule).requests = job.requests := by
  induction schedule generalizing job with
  | nil => rfl
  | cons thread rest ih =>
      have down' : (job.turn thread).shutdown = true := by rwa [turn_shutdown]
      exact (ih down').trans ((job.turn_cases thread).of_shutdown down)

/-- A pool of one thread, which has returned. -/
theorem joined_of_stopped (workers : job.workers = [.stopped]) : job.Joined := by
  intro worker member
  rw [workers] at member
  exact List.mem_singleton.mp member

theorem Joined.running (joined : job.Joined) : job.running = [] := by
  apply List.filterMap_eq_nil_iff.mpr
  intro worker member
  rw [joined worker member]
  rfl

/-- When all threads have returned, the pool is drained precisely if nothing was
left in the queue. -/
theorem Sound.drained_iff (sound : job.Sound) (joined : job.Joined) :
    job.Drained ↔ job.requests = [] := by
  have taken := sound.taken
  have single := sound.single
  rw [joined.running, List.append_nil] at taken single
  constructor
  · rintro ⟨all, _⟩
    have lengths := all.length_eq
    rw [sound.queue, List.length_append, taken.length_eq] at lengths
    exact List.length_eq_zero_iff.mp (by omega)
  · intro empty
    have queue := sound.queue
    rw [empty, List.append_nil] at queue
    rw [Drained, queue]
    exact ⟨taken.symm, fun one => (single one).symm⟩

/-- A pool that is released executes everything precisely if its queue is empty
when the flag is set: a thread looks at the flag before it looks at the queue. -/
theorem released_drained_iff (sound : job.Sound) {schedule : List ℕ}
    (joined : (job.release.turns schedule).Joined) :
    (job.release.turns schedule).Drained ↔ job.requests = [] := by
  have down : job.release.shutdown = true := rfl
  have kept := turns_of_shutdown schedule down
  rw [sound.release.turns.drained_iff joined, kept]
  rfl

end Job

end ViabtcServer.Network
