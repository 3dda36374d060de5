import Mathlib.Data.List.Perm.Basic
import Mathlib.Data.List.Range

/-!
# Routing answers

What a server in the middle is for: requests come from connections, each is completed
once, at once or by the first answer to it, and its connection is told if it is still
open. Requests and connections are known by their number.
-/

namespace ViabtcServer.Routing

/-- The requests so far with their connections, those that wait, those that are
completed in that order, and what was sent. -/
structure Router where
  owner : List ℕ
  pending : List ℕ
  completed : List ℕ
  conns : ℕ
  opened : List ℕ
  sent : List (ℕ × ℕ)

def Router.empty : Router := ⟨[], [], [], 0, [], []⟩

/-- What happens to a server in the middle; `closes` says that sending fails. -/
inductive RouterEvent
  | connect
  | close (conn : ℕ)
  | request (conn : ℕ) (atOnce closes : Bool)
  | answer (req : ℕ) (closes : Bool)

namespace Router

/-- Tell a connection, if it is open. -/
def send (router : Router) (conn req : ℕ) (closes : Bool) : Router :=
  if conn ∈ router.opened then
    { router with
      sent := router.sent ++ [(conn, req)]
      opened := if closes then router.opened.filter (· ≠ conn) else router.opened }
  else router

/-- A request is completed. -/
def complete (router : Router) (conn req : ℕ) (closes : Bool) : Router :=
  { router with completed := router.completed ++ [req] }.send conn req closes

def step (router : Router) : RouterEvent → Router
  | .connect =>
      { router with opened := router.opened ++ [router.conns], conns := router.conns + 1 }
  | .close conn => { router with opened := router.opened.filter (· ≠ conn) }
  | .request conn atOnce closes =>
      if conn ∈ router.opened then
        let req := router.owner.length
        let router := { router with owner := router.owner ++ [conn] }
        if atOnce then router.complete conn req closes
        else { router with pending := router.pending ++ [req] }
      else router
  | .answer req closes =>
      match router.owner[req]? with
      | none => router
      | some conn =>
          if req ∈ router.pending then
            { router with pending := router.pending.erase req }.complete conn req closes
          else router

def run (router : Router) (events : List RouterEvent) : Router :=
  events.foldl step router

/-- What a connection was told. -/
def answers (router : Router) (conn : ℕ) : List ℕ :=
  (router.sent.filter (·.1 = conn)).map Prod.snd

/-- The requests of a connection that are completed, in that order. -/
def finished (router : Router) (conn : ℕ) : List ℕ :=
  router.completed.filter (router.owner[·]? = some conn)

theorem filter_absent {conn : ℕ} {opened : List ℕ} (absent : conn ∉ opened) :
    opened.filter (· ≠ conn) = opened := by
  rw [List.filter_eq_self]
  intro other mem
  exact decide_eq_true (ne_of_mem_of_not_mem mem absent)

/-- Closing a connection that is not open does nothing. -/
theorem step_close_of_absent {router : Router} {conn : ℕ} (absent : conn ∉ router.opened) :
    router.step (.close conn) = router := by
  unfold step
  simp only [filter_absent absent]

/-- A connection that is not open makes no requests. -/
theorem step_request_of_absent {router : Router} {conn : ℕ} (absent : conn ∉ router.opened)
    (atOnce closes : Bool) : router.step (.request conn atOnce closes) = router :=
  if_neg absent

/-- A request that does not wait is not answered. -/
theorem step_answer_of_absent {router : Router} {req : ℕ} (absent : req ∉ router.pending)
    (closes : Bool) : router.step (.answer req closes) = router := by
  unfold step
  simp only
  split
  · rfl
  · exact if_neg absent

/-- Whether a connection is open or not, it is not afterwards when sending fails. -/
theorem complete_eq (router : Router) (conn req : ℕ) (closes : Bool) :
    router.complete conn req closes =
      { router with
        completed := router.completed ++ [req]
        sent := router.sent ++ if conn ∈ router.opened then [(conn, req)] else []
        opened := if closes then router.opened.filter (· ≠ conn) else router.opened } := by
  unfold complete send
  by_cases isOpen : conn ∈ router.opened
  · simp only [if_pos isOpen]
  · simp only [if_neg isOpen, List.append_nil, filter_absent isOpen, ite_self]

/-! ## What holds of every run -/

/-- Each request waits or was completed; what was sent was sent to its connection; and
a connection that is open was told of all its requests that are completed. -/
structure Ok (router : Router) : Prop where
  all : (router.completed ++ router.pending).Perm (List.range router.owner.length)
  sent : (router.sent.map Prod.snd).Sublist router.completed
  owners : ∀ sent ∈ router.sent, router.owner[sent.2]? = some sent.1
  told : ∀ conn ∈ router.opened, router.answers conn = router.finished conn
  known : ∀ conn ∈ router.owner, conn < router.conns
  opened : ∀ conn ∈ router.opened, conn < router.conns

section Ok

variable {router : Router}

theorem Ok.nodup (ok : router.Ok) : (router.completed ++ router.pending).Nodup :=
  ok.all.nodup_iff.mpr List.nodup_range

/-- Nothing is sent twice. -/
theorem Ok.sent_nodup (ok : router.Ok) : (router.sent.map Prod.snd).Nodup :=
  (List.nodup_append.mp ok.nodup).1.sublist ok.sent

theorem Ok.lt_of_mem (ok : router.Ok) {req : ℕ}
    (mem : req ∈ router.completed ∨ req ∈ router.pending) : req < router.owner.length :=
  List.mem_range.mp (ok.all.mem_iff.mp (List.mem_append.mpr mem))

theorem Ok.empty : Router.empty.Ok := by
  constructor <;> simp [Router.empty]

theorem Ok.connect (ok : router.Ok) : (router.step .connect).Ok := by
  have none_ : router.finished router.conns = [] := by
    unfold finished
    rw [List.filter_eq_nil_iff]
    intro req _ same
    rw [decide_eq_true_iff] at same
    exact Nat.lt_irrefl _ (ok.known _ (List.mem_of_getElem? same))
  have silent : router.answers router.conns = [] := by
    unfold answers
    rw [List.map_eq_nil_iff, List.filter_eq_nil_iff]
    intro sent mem same
    rw [decide_eq_true_iff] at same
    have owner := ok.owners sent mem
    rw [same] at owner
    exact Nat.lt_irrefl _ (ok.known _ (List.mem_of_getElem? owner))
  refine ⟨ok.all, ok.sent, ok.owners, ?_, ?_, ?_⟩
  · intro conn mem
    rcases List.mem_append.mp mem with old | new
    · exact ok.told conn old
    · rw [List.mem_singleton.mp new]
      exact silent.trans none_.symm
  · exact fun conn mem => Nat.lt_succ_of_lt (ok.known conn mem)
  · intro conn mem
    rcases List.mem_append.mp mem with old | new
    · exact Nat.lt_succ_of_lt (ok.opened conn old)
    · rw [List.mem_singleton.mp new]
      exact Nat.lt_succ_self _

/-- With fewer connections open all is as well. -/
theorem Ok.keep (ok : router.Ok) {opened : List ℕ} (fewer : ∀ conn ∈ opened, conn ∈ router.opened) :
    Ok { router with opened := opened } :=
  ⟨ok.all, ok.sent, ok.owners, fun conn mem => ok.told conn (fewer conn mem), ok.known,
    fun conn mem => ok.opened conn (fewer conn mem)⟩

theorem Ok.close (ok : router.Ok) (conn : ℕ) : (router.step (.close conn)).Ok :=
  ok.keep fun _ mem => (List.mem_filter.mp mem).1

/-- Completing a request that waits. -/
theorem Ok.complete (ok : router.Ok) {req conn : ℕ} (waits : req ∈ router.pending)
    (owner : router.owner[req]? = some conn) (closes : Bool) :
    (Router.complete { router with pending := router.pending.erase req } conn req closes).Ok := by
  have all : (router.completed ++ [req] ++ router.pending.erase req).Perm
      (List.range router.owner.length) := by
    rw [List.append_assoc, List.singleton_append]
    exact ((List.perm_cons_erase waits).symm.append_left _).trans ok.all
  have finished_ (other : ℕ) :
      (router.completed ++ [req]).filter (router.owner[·]? = some other) =
        router.finished other ++ if conn = other then [req] else [] := by
    rw [List.filter_append, List.filter_singleton, owner]
    by_cases same : conn = other <;> simp [same, finished]
  unfold Router.complete send
  simp only
  by_cases isOpen : conn ∈ router.opened
  · rw [if_pos isOpen]
    have answers_ (other : ℕ) :
        ((router.sent ++ [(conn, req)]).filter (·.1 = other)).map Prod.snd =
          router.answers other ++ if conn = other then [req] else [] := by
      rw [List.filter_append, List.map_append, List.filter_singleton]
      by_cases same : conn = other <;> simp [same, answers]
    have whole : Ok
        { router with
          pending := router.pending.erase req
          completed := router.completed ++ [req]
          sent := router.sent ++ [(conn, req)] } := by
      refine ⟨all, ?_, ?_, ?_, ok.known, ok.opened⟩
      · rw [List.map_append]
        exact ok.sent.append (List.Sublist.refl [req])
      · intro one mem
        rcases List.mem_append.mp mem with old | new
        · exact ok.owners one old
        · rw [List.mem_singleton.mp new]
          exact owner
      · intro other mem
        have more := answers_ other
        rw [ok.told other mem, ← finished_ other] at more
        exact more
    apply whole.keep
    intro other mem
    split at mem
    · exact (List.mem_filter.mp mem).1
    · exact mem
  · rw [if_neg isOpen]
    refine ⟨all, ok.sent.trans (List.sublist_append_left _ _), ok.owners, ?_, ok.known, ok.opened⟩
    intro other mem
    have differ : conn ≠ other := fun same => isOpen (same ▸ mem)
    have more := finished_ other
    rw [if_neg differ, List.append_nil] at more
    exact (ok.told other mem).trans more.symm

/-- A request that waits. -/
theorem Ok.wait (ok : router.Ok) {conn : ℕ} (isOpen : conn ∈ router.opened) :
    Ok { router with
      owner := router.owner ++ [conn]
      pending := router.pending ++ [router.owner.length] } := by
  have old {req : ℕ} (mem : req ∈ router.completed) :
      (router.owner ++ [conn])[req]? = router.owner[req]? :=
    List.getElem?_append_left (ok.lt_of_mem (Or.inl mem))
  refine ⟨?_, ok.sent, ?_, ?_, ?_, ok.opened⟩
  · rw [← List.append_assoc, List.length_append]
    change List.Perm _ (List.range (router.owner.length + 1))
    rw [List.range_succ]
    exact ok.all.append_right _
  · intro sent mem
    have owner := ok.owners sent mem
    rwa [← old (ok.sent.subset (List.mem_map_of_mem mem))] at owner
  · intro other mem
    apply (ok.told other mem).trans
    apply List.filter_congr
    intro req mem'
    rw [old mem']
  · intro other mem
    rcases List.mem_append.mp mem with before | new
    · exact ok.known other before
    · rw [List.mem_singleton.mp new]
      exact ok.opened conn isOpen

theorem Ok.request (ok : router.Ok) (conn : ℕ) (atOnce closes : Bool) :
    (router.step (.request conn atOnce closes)).Ok := by
  unfold Router.step
  by_cases isOpen : conn ∈ router.opened
  · simp only [if_pos isOpen]
    have waiting := ok.wait isOpen
    cases atOnce with
    | true =>
        -- it waits, and is completed
        have next := waiting.complete (List.mem_append_right _ (List.mem_singleton_self _))
          List.getElem?_concat_length closes
        have absent : router.owner.length ∉ router.pending := fun mem =>
          Nat.lt_irrefl _ (ok.lt_of_mem (Or.inr mem))
        have erased : (router.pending ++ [router.owner.length]).erase router.owner.length =
            router.pending := by
          rw [List.erase_append_right _ absent, List.erase_cons_head, List.append_nil]
        simp only [erased] at next
        exact next
    | false => exact waiting
  · simp only [if_neg isOpen]
    exact ok

theorem Ok.answer (ok : router.Ok) (req : ℕ) (closes : Bool) :
    (router.step (.answer req closes)).Ok := by
  unfold Router.step
  simp only
  split
  · exact ok
  · rename_i conn owner
    by_cases waits : req ∈ router.pending
    · rw [if_pos waits]
      exact ok.complete waits owner closes
    · rw [if_neg waits]
      exact ok

theorem Ok.step (ok : router.Ok) (event : RouterEvent) : (router.step event).Ok := by
  cases event with
  | connect => exact ok.connect
  | close conn => exact ok.close conn
  | request conn atOnce closes => exact ok.request conn atOnce closes
  | answer req closes => exact ok.answer req closes

theorem Ok.run (ok : router.Ok) (events : List RouterEvent) : (router.run events).Ok := by
  induction events generalizing router with
  | nil => exact ok
  | cons event events ih => exact ih (ok.step event)

end Ok

end Router

end ViabtcServer.Routing
