import ViabtcServer.Access.Front
import ViabtcServer.Routing.Router

/-!
# Where replies go

Whatever memory and sequence numbers are used again: a reply or timeout goes to the
connection of its request, as if requests and connections were known by number.
-/

namespace ViabtcServer.Access

open Network Routing

namespace Front

/-! ## The abstract run -/

/-- An event, without memory, sequence numbers and contents. -/
def Event.route : Event → List RouterEvent
  | .connect _ => [.connect]
  | .close conn => [.close conn]
  | .request conn (.forward _) fails => [.request conn false fails]
  | .request conn (.answer _) fails => [.request conn true fails]
  | .request conn (.refuse _) _ => [.close conn]
  | .request _ .ignore _ => []
  | .reply req _ fails => [.answer req fails]
  | .timeout req fails => [.answer req fails]

/-- What was sent for a request, and to which connection. -/
def numbered (sent : List Sent) : List (ℕ × ℕ) :=
  sent.filterMap fun one => one.req.map fun req => (one.conn, req)

/-- The table has one entry for each request that waits, with the session and id of
its connection. -/
structure Sim (front : Front) (router : Router) : Prop where
  svr : front.svr.Ok
  conns : router.conns = front.svr.addrs.length
  opened : ∀ conn, conn ∈ router.opened ↔ (front.svr.openAt conn).isSome
  owner : router.owner = front.issued.map Issue.conn
  pending : ∀ req, req ∈ router.pending ↔
    ∃ sequence info, nwStateGet front.state sequence = some info ∧ info.req = req
  entries : ∀ sequence info, nwStateGet front.state sequence = some info →
    ∃ conn, front.issued[info.req]? = some ⟨conn, some sequence⟩ ∧
      front.svr.addrs[conn]? = some info.ses ∧ info.sesId = idOf conn
  latest : ∀ sequence info, nwStateGet front.state sequence = some info →
    ∀ later, info.req < later → front.sequenceOf later ≠ some sequence
  sent : numbered front.sent = router.sent
  malformed : ∀ one ∈ front.sent, one.req = none →
    one.conn ∉ router.opened ∧ one.conn < router.conns

theorem numbered_append (sent more : List Sent) :
    numbered (sent ++ more) = numbered sent ++ numbered more :=
  List.filterMap_append

theorem Sim.init : Sim Front.init Router.empty := by
  refine ⟨.empty, rfl, ?_, rfl, ?_, ?_, ?_, rfl, fun _ absent => absurd absent List.not_mem_nil⟩
  · intro conn
    exact iff_of_false List.not_mem_nil (by simp [Front.init, NwSvr.empty, NwSvr.openAt])
  · intro req
    refine iff_of_false List.not_mem_nil ?_
    rintro ⟨sequence, info, found, _⟩
    cases found
  · exact fun _ _ found => by cases found
  · exact fun _ _ found => by cases found

section Step

variable {front : Front} {router : Router} {conn : ℕ} {addr : Addr}

/-! ## Sessions -/

/-- The sessions of a server with a connection closed, if `closes` says so. -/
structure Closed (svr : NwSvr) (conn : ℕ) (closes : Bool) (after : NwSvr) : Prop where
  ok : after.Ok
  addrs : after.addrs = svr.addrs
  opened : ∀ other, (after.openAt other).isSome ↔
    (svr.openAt other).isSome ∧ ¬(closes = true ∧ other = conn)

theorem Closed.none (ok : front.svr.Ok) (conn : ℕ) : Closed front.svr conn false front.svr :=
  ⟨ok, rfl, fun _ => (and_iff_left (fun both => Bool.false_ne_true both.1)).symm⟩

theorem Closed.close {svr : NwSvr} (ok : svr.Ok) (opened : svr.openAt conn = some addr) :
    Closed svr conn true (nwSvrCloseSes svr addr) := by
  obtain ⟨ok', addrs, gone, others⟩ := ok.close opened
  refine ⟨ok', addrs, ?_⟩
  intro other
  by_cases same : other = conn
  · rw [same, gone]
    exact iff_of_false Bool.false_ne_true (fun both => both.2 ⟨rfl, rfl⟩)
  · rw [others other same]
    exact (and_iff_left (fun both => same both.2)).symm

/-- What `nw_ses_send` does for a connection that is open. -/
theorem send_spec (ok : front.svr.Ok)
    (opened : front.svr.openAt conn = some addr) (req : Option ℕ) (message : Message)
    (fails : Bool) :
    ∃ svr, front.send addr req message fails =
        { front with svr := svr, sent := front.sent ++ [⟨conn, req, message⟩] } ∧
      Closed front.svr conn fails svr := by
  obtain ⟨_, ses, found, rfl, _⟩ := NwSvr.openAt_eq_some.mp opened
  unfold Front.send
  rw [found]
  cases fails with
  | true => exact ⟨_, rfl, Closed.close ok opened⟩
  | false => exact ⟨_, rfl, Closed.none ok _⟩

/-- Closing in the abstract. -/
theorem mem_opened_closed {closes : Bool} {other : ℕ} {opened : List ℕ} :
    other ∈ (if closes then opened.filter (· ≠ conn) else opened) ↔
      other ∈ opened ∧ ¬(closes = true ∧ other = conn) := by
  cases closes with
  | true => simp
  | false => simp

/-- Only sessions changed. -/
theorem Sim.closed (sim : Sim front router) {closes : Bool} {svr : NwSvr}
    (after : Closed front.svr conn closes svr) :
    Sim { front with svr := svr }
      { router with
        opened := if closes then router.opened.filter (· ≠ conn) else router.opened } := by
  refine ⟨after.ok, sim.conns.trans (congrArg List.length after.addrs).symm, ?_, sim.owner,
    sim.pending, ?_, sim.latest, sim.sent, ?_⟩
  · intro other
    rw [mem_opened_closed, sim.opened other]
    exact (after.opened other).symm
  · intro sequence info found
    obtain ⟨owner, issue, address, id⟩ := sim.entries sequence info found
    exact ⟨owner, issue, after.addrs ▸ address, id⟩
  · intro one mem none_
    obtain ⟨closed, known⟩ := sim.malformed one mem none_
    exact ⟨fun still => closed (mem_opened_closed.mp still).1, known⟩

theorem Sim.connect (sim : Sim front router) {fresh : Addr}
    (unused : front.svr.cache.free = [] → front.svr.mem fresh = none)
    (room : front.svr.addrs.length + 1 < 2 ^ 64) :
    Sim { front with svr := nwSvrAddSes front.svr fresh } (router.step .connect) := by
  obtain ⟨ok, addrs, new, old⟩ := sim.svr.add unused room
  refine ⟨ok, ?_, ?_, sim.owner, sim.pending, ?_, sim.latest, sim.sent, ?_⟩
  · rw [addrs, List.length_append, ← sim.conns]
    rfl
  · intro conn
    change conn ∈ router.opened ++ [router.conns] ↔ _
    rw [List.mem_append, List.mem_singleton, sim.opened, sim.conns]
    change _ ↔ ((nwSvrAddSes front.svr fresh).openAt conn).isSome
    rcases Nat.lt_trichotomy conn front.svr.addrs.length with below | same | above
    · rw [old conn below]
      exact or_iff_left (Nat.ne_of_lt below)
    · rw [same, new]
      exact iff_of_true (Or.inr rfl) rfl
    · -- there is no such connection
      have none_ (svr : NwSvr) (beyond : svr.addrs.length ≤ conn) :
          ¬(svr.openAt conn).isSome := by
        intro some_
        obtain ⟨addr, opened⟩ := Option.isSome_iff_exists.mp some_
        have inside := (List.getElem?_eq_some_iff.mp (NwSvr.openAt_eq_some.mp opened).1).1
        omega
      refine iff_of_false (not_or.mpr ⟨none_ _ (Nat.le_of_lt above), Nat.ne_of_gt above⟩) ?_
      apply none_
      rw [addrs, List.length_append]
      exact above
  · intro sequence info found
    obtain ⟨owner, issue, address, id⟩ := sim.entries sequence info found
    refine ⟨owner, issue, ?_, id⟩
    change (nwSvrAddSes front.svr fresh).addrs[owner]? = _
    rw [addrs, List.getElem?_append_left (List.getElem?_eq_some_iff.mp address).1, address]
  · intro one mem none_
    obtain ⟨closed, known⟩ := sim.malformed one mem none_
    refine ⟨?_, Nat.lt_succ_of_lt known⟩
    intro still
    rcases List.mem_append.mp still with old | new
    · exact closed old
    · exact Nat.ne_of_lt known (List.mem_singleton.mp new)

/-! ## Requests -/

theorem sequenceOf_append {front after : Front} {issue : Issue}
    (more : after.issued = front.issued ++ [issue]) (req : ℕ) : after.sequenceOf req =
      if req < front.issued.length then front.sequenceOf req
      else if req = front.issued.length then issue.sequence else none := by
  unfold sequenceOf
  rw [more, List.getElem?_append]
  by_cases below : req < front.issued.length
  · rw [if_pos below, if_pos below]
  rw [if_neg below, if_neg below]
  by_cases same : req = front.issued.length
  · rw [if_pos same, same, Nat.sub_self]
    rfl
  · rw [if_neg same, List.getElem?_singleton, if_neg (by omega)]
    rfl

/-- A request of a connection that is open is given to a backend. -/
theorem Sim.forward (sim : Sim front router)
    (opened : front.svr.openAt conn = some addr)
    (room : nwStateCount front.state < 2 ^ 32 - 1) (id : BitVec 64) (fails : Bool) :
    Sim (front.forward conn addr id) (router.step (.request conn false fails)) := by
  have isOpen : conn ∈ router.opened := (sim.opened conn).mpr (by rw [opened]; rfl)
  have known := (NwSvr.openAt_eq_some.mp opened).1
  have own := (sim.svr.idAt_iff known).mpr opened
  have length : router.owner.length = front.issued.length := by
    rw [sim.owner, List.length_map]
  obtain ⟨sequence, state, add, _, unused, new, old⟩ :=
    nwStateAdd_spec room
      (⟨addr, (front.svr.idAt addr).getD 0, id, front.issued.length⟩ : StateInfo)
  have below {sequence : BitVec 32} {info : StateInfo}
      (found : nwStateGet front.state sequence = some info) :
      info.req < front.issued.length := by
    obtain ⟨_, issue, _⟩ := sim.entries sequence info found
    exact (List.getElem?_eq_some_iff.mp issue).1
  have differ {other : BitVec 32} {info : StateInfo}
      (found : nwStateGet front.state other = some info) : other ≠ sequence := by
    rintro rfl
    rw [unused] at found
    cases found
  have eq : front.forward conn addr id =
      { front with state := state, issued := front.issued ++ [⟨conn, some sequence⟩] } := by
    unfold Front.forward
    simp only [add]
  have step : router.step (.request conn false fails) =
      { router with
        owner := router.owner ++ [conn]
        pending := router.pending ++ [router.owner.length] } := by
    unfold Router.step
    simp only [if_pos isOpen]
    rfl
  rw [eq, step]
  refine ⟨sim.svr, sim.conns, sim.opened, ?_, ?_, ?_, ?_, sim.sent, sim.malformed⟩
  · rw [List.map_append, ← sim.owner]
    rfl
  · intro req
    change req ∈ router.pending ++ [router.owner.length] ↔ _
    rw [List.mem_append, List.mem_singleton, sim.pending, length]
    constructor
    · rintro (⟨other, info, found, same⟩ | same)
      · exact ⟨other, info, (old other (differ found)).trans found, same⟩
      · exact ⟨sequence, _, new, same.symm⟩
    · rintro ⟨other, info, found, same⟩
      by_cases here : other = sequence
      · subst here
        cases new.symm.trans found
        exact Or.inr same.symm
      · exact Or.inl ⟨other, info, (old other here).symm.trans found, same⟩
  · intro other info found
    by_cases here : other = sequence
    · subst here
      cases new.symm.trans found
      refine ⟨conn, List.getElem?_concat_length, known, ?_⟩
      rw [own]
      rfl
    · have before := (old other here).symm.trans found
      obtain ⟨owner, issue, address, id⟩ := sim.entries other info before
      refine ⟨owner, ?_, address, id⟩
      rw [List.getElem?_append_left (below before), issue]
  · intro other info found later after same
    rw [sequenceOf_append rfl] at same
    by_cases here : other = sequence
    · subst here
      cases new.symm.trans found
      rw [if_neg (Nat.not_lt_of_gt after), if_neg (Nat.ne_of_gt after)] at same
      cases same
    · have before := (old other here).symm.trans found
      by_cases inside : later < front.issued.length
      · rw [if_pos inside] at same
        exact sim.latest other info before later after same
      · rw [if_neg inside] at same
        split at same
        · exact here (Option.some.inj same).symm
        · cases same

/-- A request that has no sequence number. -/
theorem Sim.issue (sim : Sim front router) (conn : ℕ) :
    Sim { front with issued := front.issued ++ [⟨conn, none⟩] }
      { router with owner := router.owner ++ [conn] } := by
  refine ⟨sim.svr, sim.conns, sim.opened, ?_, sim.pending, ?_, ?_, sim.sent, sim.malformed⟩
  · rw [List.map_append, ← sim.owner]
    rfl
  · intro sequence info found
    obtain ⟨owner, issue, address, id⟩ := sim.entries sequence info found
    refine ⟨owner, ?_, address, id⟩
    rw [List.getElem?_append_left (List.getElem?_eq_some_iff.mp issue).1, issue]
  · intro sequence info found later after same
    rw [sequenceOf_append rfl] at same
    split at same
    · exact sim.latest sequence info found later after same
    · split at same <;> cases same

/-- A message about a request is sent to its connection. -/
theorem Sim.send (sim : Sim front router)
    (opened : front.svr.openAt conn = some addr) (req : ℕ) (message : Message) (fails : Bool) :
    Sim (front.send addr (some req) message fails) (router.complete conn req fails) := by
  have isOpen : conn ∈ router.opened := (sim.opened conn).mpr (by rw [opened]; rfl)
  obtain ⟨svr, eq, after⟩ := send_spec sim.svr opened (some req) message fails
  have closed := sim.closed after
  rw [eq, Router.complete_eq, if_pos isOpen]
  refine ⟨closed.svr, closed.conns, closed.opened, closed.owner, closed.pending, closed.entries,
    closed.latest, ?_, ?_⟩
  · rw [numbered_append, sim.sent]
    rfl
  · intro one mem none_
    rcases List.mem_append.mp mem with old | new
    · exact closed.malformed one old none_
    · rw [List.mem_singleton.mp new] at none_
      cases none_

/-- A request of a connection that is open is answered at once. -/
theorem Sim.answer (sim : Sim front router)
    (opened : front.svr.openAt conn = some addr) (message : Message) (fails : Bool) :
    Sim (front.handle conn addr (.answer message) fails)
      (router.step (.request conn true fails)) := by
  have isOpen : conn ∈ router.opened := (sim.opened conn).mpr (by rw [opened]; rfl)
  have length : router.owner.length = front.issued.length := by
    rw [sim.owner, List.length_map]
  have step : router.step (.request conn true fails) =
      Router.complete { router with owner := router.owner ++ [conn] } conn
        router.owner.length fails := by
    unfold Router.step
    simp only [if_pos isOpen]
    rfl
  rw [step, length]
  exact (sim.issue conn).send opened front.issued.length message fails

/-- A malformed request closes its connection. -/
theorem Sim.refuse (sim : Sim front router)
    (opened : front.svr.openAt conn = some addr) (message : Option Message) (fails : Bool) :
    Sim (front.handle conn addr (.refuse message) fails) (router.step (.close conn)) := by
  obtain ⟨known, ses, found, conn', _⟩ := NwSvr.openAt_eq_some.mp opened
  have closed := sim.closed (Closed.close sim.svr opened)
  unfold Front.handle
  cases message with
  | none => exact closed
  | some message =>
      have svr : nwSvrCloseSes (front.send addr none message fails).svr addr =
          nwSvrCloseSes front.svr addr := by
        unfold Front.send
        rw [found]
        cases fails with
        | true => exact nwSvrCloseSes_idem front.svr addr
        | false => rfl
      have rest : front.send addr none message fails =
          { front with
            svr := (front.send addr none message fails).svr
            sent := front.sent ++ [⟨ses.conn, none, message⟩] } := by
        unfold Front.send
        rw [found]
      simp only
      rw [svr, rest]
      refine ⟨closed.svr, closed.conns, closed.opened, closed.owner, closed.pending,
        closed.entries, closed.latest, ?_, ?_⟩
      · rw [numbered_append, sim.sent]
        exact List.append_nil _
      · intro one mem none_
        rcases List.mem_append.mp mem with old | new
        · exact closed.malformed one old none_
        · rw [List.mem_singleton.mp new]
          refine ⟨fun still => (mem_opened_closed.mp still).2 ⟨rfl, conn'⟩, ?_⟩
          change ses.conn < router.conns
          rw [sim.conns, conn']
          exact (List.getElem?_eq_some_iff.mp known).1

/-! ## Replies -/

/-- The entry of a request that waits is taken out. -/
theorem Sim.taken (sim : Sim front router) (ok : router.Ok) {sequence : BitVec 32}
    {info : StateInfo} (found : nwStateGet front.state sequence = some info) :
    Sim { front with state := nwStateDel front.state sequence }
      { router with pending := router.pending.erase info.req } := by
  have left {other : BitVec 32} {info' : StateInfo}
      (found' : nwStateGet (nwStateDel front.state sequence) other = some info') :
      other ≠ sequence ∧ nwStateGet front.state other = some info' := by
    have differ : other ≠ sequence := by
      rintro rfl
      rw [nwStateGet_del] at found'
      cases found'
    exact ⟨differ, (nwStateGet_del_ne front.state differ).symm.trans found'⟩
  refine ⟨sim.svr, sim.conns, sim.opened, sim.owner, ?_, ?_, ?_, sim.sent, sim.malformed⟩
  · intro req
    change req ∈ router.pending.erase info.req ↔ _
    rw [(List.nodup_append.mp ok.nodup).2.1.mem_erase_iff, sim.pending]
    constructor
    · rintro ⟨differ, other, info', found', rfl⟩
      refine ⟨other, info', (nwStateGet_del_ne front.state ?_).trans found', rfl⟩
      rintro rfl
      cases found.symm.trans found'
      exact differ rfl
    · rintro ⟨other, info', found', same⟩
      obtain ⟨differ, before⟩ := left found'
      refine ⟨?_, other, info', before, same⟩
      rintro rfl
      -- a request has one sequence number
      obtain ⟨_, issue, _⟩ := sim.entries sequence info found
      obtain ⟨_, issue', _⟩ := sim.entries other info' before
      rw [same, issue] at issue'
      cases issue'
      exact differ rfl
  · intro other info' found'
    exact sim.entries other info' (left found').2
  · intro other info' found'
    exact sim.latest other info' (left found').2

/-- The entry of a request that waits is answered, if its connection is open. -/
theorem Sim.complete (sim : Sim front router) (ok : router.Ok)
    {sequence : BitVec 32} {info : StateInfo}
    (found : nwStateGet front.state sequence = some info) (message : Message) (fails : Bool) :
    Sim { front.deliver info info.req message fails with
        state := nwStateDel (front.deliver info info.req message fails).state sequence }
      (router.step (.answer info.req fails)) := by
  obtain ⟨conn, issue, address, id⟩ := sim.entries sequence info found
  have taken := sim.taken ok found
  have waits : info.req ∈ router.pending := (sim.pending info.req).mpr ⟨sequence, info, found, rfl⟩
  have owner : router.owner[info.req]? = some conn := by
    rw [sim.owner, List.getElem?_map, issue]
    rfl
  have step : router.step (.answer info.req fails) =
      Router.complete { router with pending := router.pending.erase info.req } conn info.req
        fails := by
    unfold Router.step
    simp only [owner, if_pos waits]
  have there := sim.svr.idAt_iff address
  rw [← id] at there
  rw [step]
  unfold Front.deliver
  by_cases isOpen : front.svr.openAt conn = some info.ses
  · rw [if_pos (there.mpr isOpen)]
    obtain ⟨_, ses, found', _⟩ := NwSvr.openAt_eq_some.mp isOpen
    have sent := taken.send isOpen info.req message fails
    have same : Front.send { front with state := nwStateDel front.state sequence } info.ses
        (some info.req) message fails =
          { front.send info.ses (some info.req) message fails with
            state := nwStateDel (front.send info.ses (some info.req) message fails).state
              sequence } := by
      unfold Front.send
      rw [found']
    rwa [same] at sent
  · rw [if_neg fun same => isOpen (there.mp same)]
    have closed : front.svr.openAt conn = none := by
      rw [Option.eq_none_iff_forall_ne_some]
      intro addr opened
      have known := (NwSvr.openAt_eq_some.mp opened).1
      rw [address] at known
      cases known
      exact isOpen opened
    have absent : conn ∉ router.opened := by
      rw [sim.opened, closed]
      exact Bool.false_ne_true
    have after : Closed front.svr conn fails front.svr := by
      refine ⟨sim.svr, rfl, fun other => (and_iff_left_of_imp ?_).symm⟩
      rintro some_ ⟨_, rfl⟩
      rw [closed] at some_
      exact Bool.false_ne_true some_
    have next := taken.closed after
    rw [Router.complete_eq, if_neg absent, List.append_nil]
    exact ⟨next.svr, next.conns, next.opened, next.owner, next.pending, next.entries, next.latest,
      next.sent, next.malformed⟩

end Step

/-! ## Runs -/

section Run

variable {front : Front} {router : Router} (service : Service)

/-- A request that waits is under the sequence number it was given. -/
theorem Sim.number (sim : Sim front router) {sequence : BitVec 32} {info : StateInfo}
    (found : nwStateGet front.state sequence = some info) :
    front.sequenceOf info.req = some sequence := by
  obtain ⟨_, issue, _⟩ := sim.entries sequence info found
  unfold sequenceOf
  rw [issue]
  rfl

theorem Sim.waits (sim : Sim front router) {req : ℕ} (pending : req ∈ router.pending) :
    ∃ sequence info, front.sequenceOf req = some sequence ∧
      nwStateGet front.state sequence = some info ∧ info.req = req := by
  obtain ⟨sequence, info, found, rfl⟩ := (sim.pending req).mp pending
  exact ⟨sequence, info, sim.number found, found, rfl⟩

theorem Sim.reply (sim : Sim front router) (ok : router.Ok) {req : ℕ} {body : List Wire.Byte}
    {fails : Bool} (fits : front.Fits Latest (.reply req body fails)) :
    Sim (front.step service (.reply req body fails)) (router.step (.answer req fails)) := by
  -- an entry under the sequence number of the request is its own
  have own {sequence : BitVec 32} {info : StateInfo} (number : front.sequenceOf req = some sequence)
      (found : nwStateGet front.state sequence = some info) : info.req = req := by
    rcases Nat.lt_trichotomy info.req req with before | same | later
    · exact absurd number (sim.latest sequence info found req before)
    · exact same
    · exact absurd (sim.number found) (fits.2 info.req sequence later number)
  unfold Front.step onBackendRecvPkg
  simp only
  cases number : front.sequenceOf req with
  | none =>
      have absent : req ∉ router.pending := fun pending => by
        obtain ⟨_, _, some_, _⟩ := sim.waits pending
        rw [number] at some_
        cases some_
      rw [Router.step_answer_of_absent absent]
      exact sim
  | some sequence =>
      simp only
      cases found : nwStateGet front.state sequence with
      | none =>
          have absent : req ∉ router.pending := fun pending => by
            obtain ⟨other, info, some_, found', _⟩ := sim.waits pending
            rw [number] at some_
            cases some_
            rw [found] at found'
            cases found'
          rw [Router.step_answer_of_absent absent]
          exact sim
      | some info =>
          obtain rfl := own number found
          exact sim.complete ok found (service.reply body) fails

theorem Sim.timeout (sim : Sim front router) (ok : router.Ok) (req : ℕ) (fails : Bool) :
    Sim (front.step service (.timeout req fails)) (router.step (.answer req fails)) := by
  have skip (absent : req ∉ router.pending) : Sim front (router.step (.answer req fails)) := by
    rw [Router.step_answer_of_absent absent]
    exact sim
  unfold Front.step
  simp only
  split
  · rename_i none_
    apply skip
    intro pending
    obtain ⟨_, _, some_, _⟩ := sim.waits pending
    rw [none_] at some_
    cases some_
  rename_i sequence number
  split
  · rename_i none_
    apply skip
    intro pending
    obtain ⟨_, _, some_, found, _⟩ := sim.waits pending
    rw [number] at some_
    cases some_
    rw [none_] at found
    cases found
  rename_i info found
  split
  · rename_i same
    subst same
    exact sim.complete ok found (service.timeOut info.requestId) fails
  · rename_i differ
    apply skip
    intro pending
    obtain ⟨_, _, some_, found', same⟩ := sim.waits pending
    rw [number] at some_
    cases some_
    rw [found] at found'
    cases found'
    exact differ same

/-- What one event does is what it does in the abstract. -/
theorem Sim.step (sim : Sim front router) (ok : router.Ok) {event : Event}
    (fits : front.Fits Latest event) :
    Sim (front.step service event) (router.run event.route) := by
  cases event with
  | connect fresh => exact sim.connect fits.2.1 fits.2.2
  | close conn =>
      change Sim _ (router.step (.close conn))
      unfold Front.step
      simp only
      split
      · rename_i closed
        have absent : conn ∉ router.opened := by
          rw [sim.opened, closed]
          exact Bool.false_ne_true
        rw [Router.step_close_of_absent absent]
        exact sim
      · rename_i addr opened
        exact sim.closed (Closed.close sim.svr opened)
  | request conn handling fails =>
      unfold Front.step
      simp only
      split
      · rename_i closed
        have absent : conn ∉ router.opened := by
          rw [sim.opened, closed]
          exact Bool.false_ne_true
        have same : router.run (Event.route (.request conn handling fails)) = router := by
          cases handling with
          | forward id => exact Router.step_request_of_absent absent false fails
          | answer message => exact Router.step_request_of_absent absent true fails
          | refuse message => exact Router.step_close_of_absent absent
          | ignore => rfl
        rw [same]
        exact sim
      · rename_i addr opened
        cases handling with
        | forward id => exact sim.forward opened fits.2 id fails
        | answer message => exact sim.answer opened message fails
        | refuse message => exact sim.refuse opened message fails
        | ignore => exact sim
  | reply req body fails => exact sim.reply service ok fits
  | timeout req fails => exact sim.timeout service ok req fails

/-- A run is what it is in the abstract. -/
theorem Sim.run (sim : Sim front router) (ok : router.Ok) {events : List Event}
    (fits : RunFits Latest service front events) :
    Sim (front.run service events) (router.run (events.flatMap Event.route)) ∧
      (router.run (events.flatMap Event.route)).Ok := by
  induction events generalizing front router with
  | nil => exact ⟨sim, ok⟩
  | cons event events ih =>
      obtain ⟨first, rest⟩ := fits
      have next := ih (sim.step service ok first) (ok.run event.route) rest
      unfold Router.run at next ⊢
      rwa [List.flatMap_cons, List.foldl_append]

/-! ## Where replies go -/

/-- What is sent for a request goes to the connection that made it; and for each request
it is sent once at most. -/
structure Routed (front : Front) : Prop where
  owner : ∀ one ∈ front.sent, ∀ req, one.req = some req →
    front.issued[req]?.map Issue.conn = some one.conn
  once : (front.sent.filterMap Sent.req).Nodup

theorem Sim.routed (sim : Sim front router) (ok : router.Ok) : front.Routed := by
  constructor
  · intro one mem req eq
    have there : (one.conn, req) ∈ router.sent := by
      rw [← sim.sent]
      refine List.mem_filterMap.mpr ⟨one, mem, ?_⟩
      rw [eq, Option.map_some]
    have owner := ok.owners _ there
    rw [sim.owner, List.getElem?_map] at owner
    exact owner
  · have nodup := ok.sent_nodup
    rw [← sim.sent, numbered, List.map_filterMap] at nodup
    have same : (fun one : Sent => (one.req.map fun req => (one.conn, req)).map Prod.snd) =
        Sent.req := by
      funext one
      rw [Option.map_map]
      exact Option.map_id'
    rwa [same] at nodup

end Run

end Front

end ViabtcServer.Access
