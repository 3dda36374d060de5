import ViabtcServer.Access.Routing

/-!
# Sequence numbers come round

Replies go to the connection of their request as long as they come before the sequence
number is given out again. That is after `2^32 - 1` requests, as 0 is left out.
-/

namespace ViabtcServer.Access

open Container Network Routing

namespace Front

/-- In every run, in which backends answer what they were sent, late, twice or not at
all, as long as it is before the sequence number is given out again: replies and
timeouts go to the connection of their request, and one at most for each request. -/
theorem replies_routed (service : Service) (events : List Event)
    (fits : RunFits Latest service Front.init events) :
    (Front.init.run service events).Routed := by
  obtain ⟨sim, ok⟩ := Sim.init.run service .empty fits
  exact sim.routed ok

/-! ## Several connections -/

/-- No request after this one has its sequence number. -/
def latest (front : Front) (req : ℕ) : Bool :=
  (front.issued.drop (req + 1)).all fun issue =>
    issue.sequence.isNone || decide (issue.sequence ≠ front.sequenceOf req)

theorem latest_sound {front : Front} {req : ℕ} (checked : front.latest req = true) :
    front.Latest req := by
  intro later sequence after number again
  rcases Option.bind_eq_some_iff.mp again with ⟨issue, found, own⟩
  have there : issue ∈ front.issued.drop (req + 1) := by
    apply List.mem_of_getElem? (i := later - (req + 1))
    rw [List.getElem?_drop, Nat.add_sub_cancel' after]
    exact found
  have differ := List.all_eq_true.mp checked issue there
  rw [own, number] at differ
  simp at differ

/-- Whether an event is as it should be. -/
def fits (front : Front) (event : Event) : Bool :=
  decide (front.svr.cache.free.length < front.svr.cache.freeTotal) &&
    match event with
    | .connect fresh => (front.svr.mem fresh).isNone && decide (front.svr.addrs.length + 1 < 2 ^ 64)
    | .request _ (.forward _) _ => decide (nwStateCount front.state < 2 ^ 32 - 1)
    | .reply req _ _ => front.latest req
    | _ => true

def runFits (service : Service) : Front → List Event → Bool
  | _, [] => true
  | front, event :: events => front.fits event && runFits service (front.step service event) events

theorem runFits_sound {service : Service} {events : List Event} {front : Front}
    (checked : runFits service front events = true) : RunFits Latest service front events := by
  induction events generalizing front with
  | nil => trivial
  | cons event events ih =>
      unfold runFits fits at checked
      simp only [Bool.and_eq_true, decide_eq_true_eq] at checked
      rcases checked with ⟨⟨room, own⟩, rest⟩
      refine ⟨⟨Or.inl room, ?_⟩, ih rest⟩
      cases event with
      | connect fresh =>
          simp only [Bool.and_eq_true, decide_eq_true_eq, Option.isNone_iff_eq_none] at own
          exact ⟨fun _ => own.1, own.2⟩
      | close => trivial
      | request conn handling fails =>
          cases handling with
          | forward id => exact of_decide_eq_true own
          | answer | refuse | ignore => trivial
      | reply req body fails => exact latest_sound own
      | timeout => trivial

/-- Two connections make a request each. The first one is closed, a third one gets its memory
and makes a request. Then the replies come, one of them twice, and the timer of the last. -/
def reusedRun : List Event :=
  [.connect 0, .connect 1, .request 0 (.forward 7) false, .request 1 (.forward 8) false,
    .close 0, .connect 2, .request 2 (.forward 9) false, .reply 0 [1] false, .reply 1 [2] false,
    .reply 1 [2] false, .timeout 2 false, .reply 2 [3] false]

/-- The reply for the closed connection is not sent to the one that has its memory. -/
theorem replies_routed_small : (Front.init.run accesshttp reusedRun).Routed ∧
    (Front.init.run accesshttp reusedRun).svr.openAt 2 = some 0 ∧
      (Front.init.run accesshttp reusedRun).sent.map (fun one => (one.conn, one.req)) =
        [(1, some 1), (2, some 2)] :=
  ⟨replies_routed accesshttp reusedRun (runFits_sound (by decide +kernel)), by decide +kernel,
    by decide +kernel⟩

/-! ## One number twice -/

section Again

variable {service : Service} {front : Front} {n : ℕ}

/-- Two connections. -/
def twoConnections : NwSvr := nwSvrAddSes (nwSvrAddSes .empty 0) 1

/-- Both are open, `n` requests were made, and none waits. -/
structure Idle (front : Front) (n : ℕ) : Prop where
  svr : front.svr = twoConnections
  state : front.state = ⟨∅, BitVec.ofNat 32 n⟩
  issued : front.issued.length = n
  first : 0 < n → front.issued[0]? = some ⟨0, some 1⟩

/-- A request of the first connection, and the reply to it. -/
def cycle (req : ℕ) : List Event :=
  [.request 0 (.forward 0) false, .reply req [] false]

theorem nextId_ofNat (below : n + 1 < 2 ^ 32) :
    nextId (BitVec.ofNat 32 n) = BitVec.ofNat 32 (n + 1) := by
  have next : BitVec.ofNat 32 n + 1 = BitVec.ofNat 32 (n + 1) := (BitVec.ofNat_add n 1).symm
  have nonzero : BitVec.ofNat 32 (n + 1) ≠ 0 := by
    intro zero
    have value := congrArg BitVec.toNat zero
    rw [BitVec.toNat_ofNat] at value
    change _ = 0 at value
    omega
  unfold nextId
  rw [next, if_neg nonzero]

/-- With nothing waiting the next number is given out. -/
theorem nwStateAdd_none (idStart : BitVec 32) (info : StateInfo) :
    nwStateAdd ⟨∅, idStart⟩ 0 info =
      some (nextId idStart, ⟨dictReplace ∅ (nextId idStart) info, nextId idStart⟩) := by
  have loop {fuel : ℕ} (some_ : 0 < fuel) :
      availableId (∅ : Dict (BitVec 32) StateInfo) fuel idStart = some (nextId idStart) := by
    rcases fuel with _ | fuel
    · cases some_
    · unfold availableId
      rw [dictFind_empty]
  have count : nwStateCount (⟨∅, idStart⟩ : NwState StateInfo) = 0 := rfl
  unfold nwStateAdd getAvailableId
  rw [if_neg (fun both => both.1 rfl), count, if_neg (by decide), if_neg (not_not_intro rfl),
    loop (Nat.two_pow_pos 32), Option.map_some]

theorem step_request (idle : front.Idle n) {conn : ℕ} {addr : Addr} {sesId : BitVec 64}
    (opened : twoConnections.openAt conn = some addr)
    (own : twoConnections.idAt addr = some sesId) :
    front.step service (.request conn (.forward 0) false) =
      { front with
        state := ⟨dictReplace ∅ (nextId (BitVec.ofNat 32 n)) ⟨addr, sesId, 0, n⟩,
          nextId (BitVec.ofNat 32 n)⟩
        issued := front.issued ++ [⟨conn, some (nextId (BitVec.ofNat 32 n))⟩] } := by
  unfold Front.step
  simp only [idle.svr, opened]
  unfold handle forward
  simp only [idle.svr, own, idle.state, idle.issued, Option.getD_some, nwStateAdd_none]

/-- A request, and a reply to one with the same sequence number. -/
theorem run_request_reply (service : Service) (idle : front.Idle n) {sequence : BitVec 32}
    (conn : ℕ) (addr : Addr) {sesId : BitVec 64} (req : ℕ)
    (opened : twoConnections.openAt conn = some addr)
    (there : twoConnections.mem addr = some ⟨sesId, conn⟩)
    (next : nextId (BitVec.ofNat 32 n) = sequence)
    (number : (front.issued ++ [⟨conn, some sequence⟩])[req]?.bind Issue.sequence =
      some sequence) :
    front.run service [.request conn (.forward 0) false, .reply req [] false] =
      { front with
        state := ⟨∅, sequence⟩
        issued := front.issued ++ [⟨conn, some sequence⟩]
        sent := front.sent ++ [⟨conn, some req, service.reply []⟩] } := by
  have own : twoConnections.idAt addr = some sesId := congrArg (Option.map NwSes.id) there
  have request : front.step service (.request conn (.forward 0) false) = _ :=
    step_request idle opened own
  have gone {info : StateInfo} : dictDelete (dictReplace ∅ sequence info) sequence = ∅ := by
    apply AList.ext
    exact List.kerase_cons_eq rfl
  have found {info : StateInfo} :
      nwStateGet ⟨dictReplace ∅ sequence info, sequence⟩ sequence = some info :=
    dictFind_replace
  change (front.step service (.request conn (.forward 0) false)).step service
    (.reply req [] false) = _
  rw [request, next]
  unfold Front.step sequenceOf
  simp only [number]
  unfold onBackendRecvPkg deliver send
  simp only [found, idle.svr, own, if_true, there, nwStateDel, gone]
  rfl

theorem run_append (first rest : List Event) :
    front.run service (first ++ rest) = (front.run service first).run service rest :=
  List.foldl_append

theorem runFits_append {timely : Front → ℕ → Prop} {first rest : List Event} :
    RunFits timely service front (first ++ rest) ↔
      RunFits timely service front first ∧
        RunFits timely service (front.run service first) rest := by
  induction first generalizing front with
  | nil => exact (and_iff_right trivial).symm
  | cons event first ih =>
      change _ ∧ RunFits timely service _ (first ++ rest) ↔ _
      rw [ih]
      exact and_assoc.symm

theorem Idle.room (idle : front.Idle n) : front.svr.cache.Room := by
  rw [idle.svr]
  exact Or.inl (by decide)

theorem Idle.count (idle : front.Idle n) : nwStateCount front.state < 2 ^ 32 - 1 := by
  have none_ : nwStateCount (⟨∅, BitVec.ofNat 32 n⟩ : NwState StateInfo) = 0 := rfl
  rw [idle.state, none_]
  decide

/-- The events of a request and a reply are as they should be. -/
theorem Idle.fits (idle : front.Idle n) (conn : ℕ) (addr : Addr) {sesId : BitVec 64}
    (opened : twoConnections.openAt conn = some addr)
    (own : twoConnections.idAt addr = some sesId) {req : ℕ} (late : n + 1 ≤ req + 1 + 2 ^ 32) :
    RunFits (Within (2 ^ 32)) service front
      [.request conn (.forward 0) false, .reply req [] false] := by
  refine ⟨⟨idle.room, idle.count⟩, ?_, trivial⟩
  rw [step_request idle opened own]
  refine ⟨idle.room, ?_⟩
  unfold Within
  rwa [List.length_append, idle.issued]

theorem Idle.cycle (service : Service) (idle : front.Idle n) (below : n + 1 < 2 ^ 32) :
    Idle (front.run service (Front.cycle n)) (n + 1) ∧
      RunFits (Within (2 ^ 32)) service front (Front.cycle n) := by
  have issued : (front.issued ++ [(⟨0, some (BitVec.ofNat 32 (n + 1))⟩ : Issue)])[n]? =
      some ⟨0, some (BitVec.ofNat 32 (n + 1))⟩ :=
    idle.issued ▸ List.getElem?_concat_length
  have run := run_request_reply service idle 0 0 n rfl rfl (nextId_ofNat below)
    (congrArg (Option.bind · Issue.sequence) issued)
  constructor
  · unfold Front.cycle
    rw [run]
    refine ⟨idle.svr, rfl, ?_, ?_⟩
    · rw [List.length_append, idle.issued]
      rfl
    · intro _
      rcases Nat.eq_zero_or_pos n with zero | some_
      · subst zero
        exact issued
      · rw [List.getElem?_append_left (idle.issued ▸ some_)]
        exact idle.first some_
  · exact idle.fits 0 0 rfl rfl (by omega)

/-- After `n` requests of the first connection that were replied to. -/
theorem idle_cycles (service : Service) {n : ℕ} (below : n < 2 ^ 32) :
    Idle ((Front.init.run service [.connect 0, .connect 1]).run service
        ((List.range n).flatMap Front.cycle)) n ∧
      RunFits (Within (2 ^ 32)) service (Front.init.run service [.connect 0, .connect 1])
        ((List.range n).flatMap Front.cycle) := by
  induction n with
  | zero => exact ⟨⟨rfl, rfl, rfl, fun absurd_ => absurd absurd_ (Nat.lt_irrefl 0)⟩, trivial⟩
  | succ n ih =>
      obtain ⟨idle, fits⟩ := ih (Nat.lt_of_succ_lt below)
      obtain ⟨idle', fits'⟩ := idle.cycle service below
      have more : (List.range (n + 1)).flatMap Front.cycle =
          (List.range n).flatMap Front.cycle ++ Front.cycle n := by
        rw [List.range_succ, List.flatMap_append, List.flatMap_singleton]
      rw [more, runFits_append]
      refine ⟨?_, fits, fits'⟩
      rwa [run_append]

end Again

/-- A reply that comes twice, the second time after `2^32 - 1` further requests, goes to
the connection that was given its sequence number. -/
theorem replies_not_always_routed :
    ¬∀ (service : Service) (events : List Event),
      RunFits (Within (2 ^ 32)) service Front.init events →
        (Front.init.run service events).Routed := by
  intro always
  obtain ⟨n, count⟩ : ∃ n, n + 1 = 2 ^ 32 := ⟨2 ^ 32 - 1, by decide⟩
  obtain ⟨idle, fits⟩ := @idle_cycles accesshttp n (by omega)
  have first : RunFits (Within (2 ^ 32)) accesshttp Front.init [.connect 0, .connect 1] :=
    ⟨⟨Or.inl (by decide), fun _ => rfl, by decide⟩,
      ⟨Or.inl (by decide), fun _ => rfl, by decide⟩, trivial⟩
  have routed := always accesshttp (([.connect 0, .connect 1] ++
    (List.range n).flatMap Front.cycle) ++
      [.request 1 (.forward 0) false, .reply 0 [] false])
  rw [runFits_append, runFits_append, run_append, run_append, run_append] at routed
  generalize (Front.run accesshttp _ ((List.range n).flatMap Front.cycle)) = front at *
  have again : nextId (BitVec.ofNat 32 n) = 1 := by
    obtain rfl : n = 4294967295 := by omega
    decide
  have some_ : 0 < front.issued.length := by
    rw [idle.issued]
    omega
  have issued (issue : Issue) : (front.issued ++ [issue])[0]? = some ⟨0, some 1⟩ :=
    (List.getElem?_append_left some_).trans (idle.first (idle.issued ▸ some_))
  have run := run_request_reply accesshttp idle 1 1 0 rfl rfl again
    (congrArg (Option.bind · Issue.sequence) (issued _))
  have owner := (routed ⟨⟨first, fits⟩, idle.fits 1 1 rfl rfl (by omega)⟩).owner
  rw [run] at owner
  have wrong := owner _ (List.mem_append_right _ (List.mem_singleton_self _)) 0 rfl
  simp only [issued] at wrong
  cases wrong

end Front

end ViabtcServer.Access
