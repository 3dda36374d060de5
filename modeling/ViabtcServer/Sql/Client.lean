import Mathlib.Logic.Relation
import Mathlib.Data.List.Basic

/-!
# Clients of a database

A client sends one statement at a time and goes on with the answer. A statement
that fails has no effect. What a server does with a statement is a parameter, and
so is which statements a failure may hit.

A run is one client alone, with the outcome of every statement it issued. In a
system any number of clients take turns, and each of them may die between two
statements; what every step of one client guarantees to the others carries an
invariant through all interleavings.
-/

namespace ViabtcServer.Sql

variable {S A D α β K : Type}

/-- A program that issues statements of `S` and reads answers of `A`; no answer
is an error. -/
inductive Client (S A α : Type) : Type
  | done (result : α)
  | query (statement : S) (next : Option A → Client S A α)

namespace Client

def bind (c : Client S A α) (f : α → Client S A β) : Client S A β :=
  match c with
  | done result => f result
  | query statement next => query statement fun answer => (next answer).bind f

instance : Monad (Client S A) where
  pure := done
  bind := bind

@[simp]
theorem pure_bind (result : α) (f : α → Client S A β) :
    (pure result : Client S A α) >>= f = f result := rfl

@[simp]
theorem done_bind (result : α) (f : α → Client S A β) :
    (done result : Client S A α) >>= f = f result := rfl

@[simp]
theorem query_bind (statement : S) (next : Option A → Client S A α) (f : α → Client S A β) :
    query statement next >>= f = query statement fun answer => next answer >>= f := rfl

private theorem map_id (x : Client S A α) : id <$> x = x := by
  induction x with
  | done result => rfl
  | query statement next ih => exact congrArg (query statement) (funext ih)

private theorem bind_bind {γ : Type} (x : Client S A α) (f : α → Client S A β)
    (g : β → Client S A γ) : x >>= f >>= g = x >>= fun result => f result >>= g := by
  induction x with
  | done result => rfl
  | query statement next ih => exact congrArg (query statement) (funext ih)

instance : LawfulMonad (Client S A) :=
  LawfulMonad.mk' (Client S A) map_id (fun _ _ => rfl) bind_bind

end Client

/-- What a server does with a statement; no result is an error. -/
abbrev Server (S A D : Type) : Type := S → D → Option (A × D)

variable {exec : Server S A D}

/-! ## One client -/

/-- A run of a client: the statements it issued, with their outcomes, its result
and the database it leaves. -/
inductive Run (exec : Server S A D) : Client S A α → D → List (S × Bool) → α → D → Prop
  | done (result : α) (d : D) : Run exec (.done result) d [] result d
  | answered {s : S} {next : Option A → Client S A α} {d d' d'' : D} {a : A}
      {log : List (S × Bool)} {result : α} : exec s d = some (a, d') →
      Run exec (next (some a)) d' log result d'' →
      Run exec (.query s next) d ((s, true) :: log) result d''
  | failed {s : S} {next : Option A → Client S A α} {d d' : D} {log : List (S × Bool)}
      {result : α} : Run exec (next none) d log result d' →
      Run exec (.query s next) d ((s, false) :: log) result d'

variable {c : Client S A α} {f : α → Client S A β} {d d' d'' : D} {log : List (S × Bool)}
  {result : α}

theorem Run.done_inv {final : α} (run : Run exec (.done result) d log final d') :
    log = [] ∧ final = result ∧ d' = d := by
  cases run with
  | done => exact ⟨rfl, rfl, rfl⟩

/-- A run of two clients in sequence is a run of each. -/
theorem Run.bind_inv {final : β} (run : Run exec (c >>= f) d log final d') :
    ∃ result middle log₁ log₂, Run exec c d log₁ result middle ∧
      Run exec (f result) middle log₂ final d' ∧ log = log₁ ++ log₂ := by
  induction c generalizing d log with
  | done result => exact ⟨result, d, [], log, .done result d, run, rfl⟩
  | query s next ih =>
      cases run with
      | answered executed rest =>
          rcases ih _ rest with ⟨result, middle, log₁, log₂, first, second, rfl⟩
          exact ⟨result, middle, _, log₂, .answered executed first, second, rfl⟩
      | failed rest =>
          rcases ih _ rest with ⟨result, middle, log₁, log₂, first, second, rfl⟩
          exact ⟨result, middle, _, log₂, .failed first, second, rfl⟩

/-- The run in which every statement succeeds, if the server refuses none. -/
def Client.runAnswered (exec : Server S A D) : Client S A α → D → Option (List (S × Bool) × α × D)
  | .done result, d => some ([], result, d)
  | .query s next, d =>
      (exec s d).bind fun (a, d') =>
        ((next (some a)).runAnswered exec d').map fun (log, result, d'') =>
          ((s, true) :: log, result, d'')

theorem runAnswered_run : ∀ {c : Client S A α} {d : D},
    c.runAnswered exec d = some (log, result, d') →
      Run exec c d log result d' ∧ ∀ entry ∈ log, entry.2 = true := by
  intro c
  induction c generalizing log with
  | done result =>
      intro d run
      obtain ⟨rfl, rfl, rfl⟩ : [] = log ∧ _ = _ ∧ _ = _ := by
        simpa [Client.runAnswered] using run
      exact ⟨.done _ _, by simp⟩
  | query s next ih =>
      intro d run
      rcases Option.bind_eq_some_iff.mp run with ⟨⟨a, middle⟩, executed, rest⟩
      rcases Option.map_eq_some_iff.mp rest with ⟨⟨log', result', d''⟩, ran, same⟩
      obtain ⟨rfl, rfl, rfl⟩ : (s, true) :: log' = log ∧ result' = result ∧ d'' = d' := by
        simpa using same
      rcases ih _ ran with ⟨run', answered⟩
      refine ⟨.answered executed run', ?_⟩
      intro entry member
      rcases List.mem_cons.mp member with rfl | later
      · rfl
      · exact answered entry later

/-! ## Clients taking turns -/

/-- The database and the clients that are still running, each under its key. -/
structure System (S A D K : Type) where
  db : D
  clients : K → Option (Client S A Unit)

/-- The client under `k` has become `c`. -/
def System.put [DecidableEq K] (sys : System S A D K) (k : K) (c : Option (Client S A Unit))
    (d : D) : System S A D K where
  db := d
  clients := Function.update sys.clients k c

variable [DecidableEq K]

/-- A step of the system: a client is started, gets an answer, gets an error or
dies. `starts` tells which clients may be started, `answers` and `fails` which
outcomes a statement may have. -/
inductive SystemStep (exec : Server S A D) (starts : D → K → Client S A Unit → Prop)
    (answers : S → D → Prop) (fails : S → Prop) : System S A D K → System S A D K → Prop
  | start {sys : System S A D K} {k : K} {c : Client S A Unit} : starts sys.db k c →
      sys.clients k = none → SystemStep exec starts answers fails sys (sys.put k (some c) sys.db)
  | answer {sys : System S A D K} {k : K} {s : S} {next : Option A → Client S A Unit} {a : A}
      {d : D} : sys.clients k = some (.query s next) → answers s sys.db →
      exec s sys.db = some (a, d) →
      SystemStep exec starts answers fails sys (sys.put k (some (next (some a))) d)
  | fail {sys : System S A D K} {k : K} {s : S} {next : Option A → Client S A Unit} :
      sys.clients k = some (.query s next) → fails s →
      SystemStep exec starts answers fails sys (sys.put k (some (next none)) sys.db)
  | die {sys : System S A D K} {k : K} {c : Client S A Unit} : sys.clients k = some c →
      SystemStep exec starts answers fails sys (sys.put k none sys.db)

/-- Whatever the others do within `rely`, every step of the client keeps `inv`
and stays within `guar`, and its result meets `post`. -/
def Safe (exec : Server S A D) (answers : S → D → Prop) (fails : S → Prop) (inv : D → Prop)
    (rely guar : D → D → Prop) (post : α → D → Prop) : Client S A α → D → Prop
  | .done result, d => post result d
  | .query s next, d => ∀ d', inv d' → rely d d' →
      (fails s → Safe exec answers fails inv rely guar post (next none) d') ∧
      ∀ a d'', answers s d' → exec s d' = some (a, d'') →
        inv d'' ∧ guar d' d'' ∧ Safe exec answers fails inv rely guar post (next (some a)) d''

variable {starts : D → K → Client S A Unit → Prop} {answers : S → D → Prop} {fails : S → Prop}
  {inv : D → Prop} {rely guar : D → D → Prop}

section Rules

omit [DecidableEq K]

variable {post post' : α → D → Prop} {postBind : β → D → Prop}

/-- What others do does not make a client unsafe. -/
theorem Safe.moved (trans : ∀ d d' d'', rely d d' → rely d' d'' → rely d d'')
    (stable : ∀ result d d', rely d d' → post result d → post result d')
    (safe : Safe exec answers fails inv rely guar post c d) (later : rely d d') :
    Safe exec answers fails inv rely guar post c d' := by
  cases c with
  | done result => exact stable result d d' later safe
  | query s next => exact fun d'' holds further => safe d'' holds (trans d d' d'' later further)

theorem Safe.mono (weaker : ∀ result d, post result d → post' result d)
    (safe : Safe exec answers fails inv rely guar post c d) :
    Safe exec answers fails inv rely guar post' c d := by
  induction c generalizing d with
  | done result => exact weaker result d safe
  | query s next ih =>
      intro d' holds later
      rcases safe d' holds later with ⟨failed, answered⟩
      constructor
      · exact fun allowed => ih none (failed allowed)
      · intro a d'' allowed executed
        rcases answered a d'' allowed executed with ⟨kept, within, rest⟩
        exact ⟨kept, within, ih (some a) rest⟩

/-- Two clients in sequence: the second starts from what the first leaves. -/
theorem Safe.bind (safe : Safe exec answers fails inv rely guar post c d)
    (next : ∀ result d', post result d' →
      Safe exec answers fails inv rely guar postBind (f result) d') :
    Safe exec answers fails inv rely guar postBind (c >>= f) d := by
  induction c generalizing d with
  | done result => exact next result d safe
  | query s rest ih =>
      intro d' holds later
      rcases safe d' holds later with ⟨failed, answered⟩
      constructor
      · exact fun allowed => ih none (failed allowed)
      · intro a d'' allowed executed
        rcases answered a d'' allowed executed with ⟨kept, within, following⟩
        exact ⟨kept, within, ih (some a) following⟩

/-- What neither the client nor the others spoil still holds at its end. -/
theorem Safe.frame (keep : D → Prop) (others : ∀ d d', rely d d' → keep d → keep d')
    (own : ∀ d d', guar d d' → keep d → keep d')
    (safe : Safe exec answers fails inv rely guar post c d) (now : keep d) :
    Safe exec answers fails inv rely guar (fun result d => post result d ∧ keep d) c d := by
  induction c generalizing d with
  | done result => exact ⟨safe, now⟩
  | query s rest ih =>
      intro d' holds later
      rcases safe d' holds later with ⟨failed, answered⟩
      have now' := others d d' later now
      constructor
      · exact fun allowed => ih none (failed allowed) now'
      · intro a d'' allowed executed
        rcases answered a d'' allowed executed with ⟨kept, within, following⟩
        exact ⟨kept, within, ih (some a) following (own d' d'' within now')⟩

end Rules

/-- The rely of each client covers what the others guarantee. -/
structure Compatible (rely guar : K → D → D → Prop) : Prop where
  refl : ∀ k d, rely k d d
  trans : ∀ k d d' d'', rely k d d' → rely k d' d'' → rely k d d''
  covers : ∀ {k k' d d'}, k ≠ k' → guar k d d' → rely k' d d'

/-- If all clients are safe when they are started, the invariant holds in every
state of every interleaving. -/
theorem safe_run {rely guar : K → D → D → Prop} {sys sys' : System S A D K}
    (compatible : Compatible rely guar)
    (safeStart : ∀ {d k c}, inv d → starts d k c →
      Safe exec answers fails inv (rely k) (guar k) (fun _ _ => True) c d)
    (holds : inv sys.db)
    (safe : ∀ {k c}, sys.clients k = some c →
      Safe exec answers fails inv (rely k) (guar k) (fun _ _ => True) c sys.db)
    (run : Relation.ReflTransGen (SystemStep exec starts answers fails) sys sys') :
    inv sys'.db ∧ ∀ {k c}, sys'.clients k = some c →
      Safe exec answers fails inv (rely k) (guar k) (fun _ _ => True) c sys'.db := by
  induction run with
  | refl => exact ⟨holds, safe⟩
  | tail _ step ih =>
      rcases ih with ⟨holds, safe⟩
      cases step with
      | @start k c started free =>
          refine ⟨holds, ?_⟩
          intro k' c' running
          by_cases same : k' = k
          · subst same
            have own : c = c' := by simpa [System.put] using running
            exact own ▸ safeStart holds started
          · exact safe (by simpa [System.put, same] using running)
      | @answer k s next a d running allowed executed =>
          have turn := (safe running _ holds (compatible.refl k _)).2 a d allowed executed
          refine ⟨turn.1, ?_⟩
          intro k' c' running'
          by_cases same : k' = k
          · subst same
            have own : next (some a) = c' := by simpa [System.put] using running'
            exact own ▸ turn.2.2
          · have before := safe (by simpa [System.put, same] using running')
            have later := compatible.covers (Ne.symm same) turn.2.1
            exact before.moved (compatible.trans k') (fun _ _ _ _ _ => trivial) later
      | @fail k s next running allowed =>
          have turn := (safe running _ holds (compatible.refl k _)).1 allowed
          refine ⟨holds, ?_⟩
          intro k' c' running'
          by_cases same : k' = k
          · subst same
            have own : next none = c' := by simpa [System.put] using running'
            exact own ▸ turn
          · exact safe (by simpa [System.put, same] using running')
      | @die k c running =>
          refine ⟨holds, ?_⟩
          intro k' c' running'
          by_cases same : k' = k
          · subst same
            simp [System.put] at running'
          · exact safe (by simpa [System.put, same] using running')

/-- A client may make its whole run while the others wait. -/
theorem Run.turns (k : K) (f : α → Client S A Unit) (run : Run exec c d log result d')
    (answered : ∀ s, (s, true) ∈ log → ∀ d, answers s d)
    (failed : ∀ s, (s, false) ∈ log → fails s) (sys : System S A D K)
    (running : sys.clients k = some (c >>= f)) (here : sys.db = d) :
    Relation.ReflTransGen (SystemStep exec starts answers fails) sys
      (sys.put k (some (f result)) d') := by
  induction run generalizing sys with
  | done result d =>
      have same : sys.put k (some (f result)) d = sys := by
        subst here
        simp only [System.put, ← show sys.clients k = some (f result) from running,
          Function.update_eq_self]
      rw [same]
  | @answered s next d d' d'' a log result executed rest ih =>
      have first : SystemStep exec starts answers fails sys
          (sys.put k (some (next (some a) >>= f)) d') :=
        .answer running (answered s List.mem_cons_self _) (here ▸ executed)
      have later := ih (fun s member => answered s (List.mem_cons_of_mem _ member))
        (fun s member => failed s (List.mem_cons_of_mem _ member))
        (sys.put k (some (next (some a) >>= f)) d') (by simp [System.put]) rfl
      simp only [System.put, Function.update_idem] at later first ⊢
      exact .head first later
  | @failed s next d d' log result rest ih =>
      have first : SystemStep exec starts answers fails sys
          (sys.put k (some (next none >>= f)) d) :=
        here ▸ .fail running (failed s List.mem_cons_self)
      have later := ih (fun s member => answered s (List.mem_cons_of_mem _ member))
        (fun s member => failed s (List.mem_cons_of_mem _ member))
        (sys.put k (some (next none >>= f)) d) (by simp [System.put]) rfl
      simp only [System.put, Function.update_idem] at later first ⊢
      exact .head first later

/-- The clients under the keys of a schedule take turns: each gets the answer to its next
statement, or an error where the schedule says so. -/
def System.serve (exec : Server S A D) (allowed : S → D → Bool) (mayFail : S → Bool) :
    List (K × Bool) → System S A D K → Option (System S A D K)
  | [], sys => some sys
  | (k, answered) :: later, sys =>
      match sys.clients k with
      | some (.query s next) =>
          if answered then
            if allowed s sys.db then
              (exec s sys.db).bind fun (a, d) =>
                (sys.put k (some (next (some a))) d).serve exec allowed mayFail later
            else none
          else if mayFail s then
            (sys.put k (some (next none)) sys.db).serve exec allowed mayFail later
          else none
      | _ => none

/-- A schedule that can be kept is a run. -/
theorem System.serve_run {allowed : S → D → Bool} {mayFail : S → Bool}
    (answers_ : ∀ s d, allowed s d = true → answers s d) (fails_ : ∀ s, mayFail s = true → fails s)
    {schedule : List (K × Bool)} {sys sys' : System S A D K}
    (served : sys.serve exec allowed mayFail schedule = some sys') :
    Relation.ReflTransGen (SystemStep exec starts answers fails) sys sys' := by
  induction schedule generalizing sys with
  | nil =>
      cases served
      exact .refl
  | cons turn later ih =>
      rcases turn with ⟨k, answered⟩
      unfold System.serve at served
      split at served
      · rename_i s next running
        cases answered with
        | true =>
            rw [if_pos rfl] at served
            by_cases free : allowed s sys.db = true
            · rw [if_pos free] at served
              rcases Option.bind_eq_some_iff.mp served with ⟨⟨a, d⟩, executed, rest⟩
              exact .head (.answer running (answers_ s _ free) executed) (ih rest)
            · rw [if_neg free] at served
              cases served
        | false =>
            rw [if_neg Bool.false_ne_true] at served
            by_cases free : mayFail s = true
            · rw [if_pos free] at served
              exact .head (.fail running (fails_ s free)) (ih served)
            · rw [if_neg free] at served
              cases served
      · cases served

end ViabtcServer.Sql
