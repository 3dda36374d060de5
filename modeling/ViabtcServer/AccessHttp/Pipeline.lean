import Mathlib.Data.Option.Basic
import ViabtcServer.Access.Routing
import ViabtcServer.Http.Request

/-!
# Pipelined requests

`on_http_request`, and the order of responses: a response is written when its request
is completed, whatever was requested before it on the connection.
-/

namespace ViabtcServer.AccessHttp

open Access Http Network Routing
open Wire (Byte)

/-! ## Requests -/

/-- What is read of the body of a request: the integer `id` and the string `method`;
`params`, an array, goes to the backend. -/
structure Call where
  id : BitVec 64
  method : String

/-- `HTTP_POST`. -/
def httpPost : ℕ := 3

/-- `reply_bad_request`. -/
def replyBadRequest : Message := ⟨some 400, .bytes []⟩

/-- `reply_internal_error`. -/
def replyInternalError : Message := ⟨some 500, .bytes []⟩

/-- `reply_not_found`. -/
def replyNotFound (id : BitVec 64) : Message := replyError id 4 "method not found" 404

section Handler

variable {β : Type} (parse : List Byte → Option Call) (methods : String → Option β)

/-- `on_http_request`, where `parse` is `json_loadb` with the checks of the members and
`methods` says which backend a method is for. -/
def onHttpRequest (connected : β → Bool) (request : HttpRequest) : Handling :=
  match request.body with
  | none => .refuse (some replyBadRequest)
  | some body =>
      if request.method ≠ httpPost then .refuse (some replyBadRequest)
      else
        match parse body with
        | none => .refuse (some replyBadRequest)
        | some call =>
            match methods call.method with
            | none => .answer (replyNotFound call.id)
            | some clt =>
                if !connected clt then .answer replyInternalError else .forward call.id

/-- What happens to `accesshttp`; `connected` are the backends it is connected to. -/
inductive HttpEvent (β : Type)
  | connect (fresh : Addr)
  | close (conn : ℕ)
  | request (conn : ℕ) (request : HttpRequest) (connected : β → Bool) (fails : Bool)
  | reply (req : ℕ) (body : List Byte) (fails : Bool)
  | timeout (req : ℕ) (fails : Bool)

def HttpEvent.front : HttpEvent β → Front.Event
  | .connect fresh => .connect fresh
  | .close conn => .close conn
  | .request conn asked connected fails =>
      .request conn (onHttpRequest parse methods connected asked) fails
  | .reply req body fails => .reply req body fails
  | .timeout req fails => .timeout req fails

end Handler

/-! ## Order -/

/-- For which requests a connection was written to, in that order. -/
def responses (front : Front) (conn : ℕ) : List (Option ℕ) :=
  (front.sent.filter (·.conn = conn)).map Sent.req

/-- The well-formed requests of a connection, in their order. -/
def requests (front : Front) (conn : ℕ) : List ℕ :=
  (List.range front.issued.length).filter fun req =>
    front.issued[req]?.map Issue.conn = some conn

/-- The `k`-th response answers the `k`-th request. -/
def InOrder (front : Front) (conn : ℕ) : Prop :=
  responses front conn <+: (requests front conn).map some

/-- Where no request was malformed, what was sent is about requests. -/
theorem responses_eq {sent : List Sent} {conn : ℕ}
    (good : ∀ one ∈ sent, one.conn = conn → one.req ≠ none) :
    (sent.filter (·.conn = conn)).map Sent.req =
      (((Front.numbered sent).filter (·.1 = conn)).map Prod.snd).map some := by
  induction sent with
  | nil => rfl
  | cons one sent ih =>
      have rest := ih fun other mem => good other (List.mem_cons_of_mem one mem)
      rcases one with ⟨owner, req, message⟩
      unfold Front.numbered at rest ⊢
      by_cases own : owner = conn
      · obtain ⟨req, rfl⟩ := Option.ne_none_iff_exists'.mp (good _ List.mem_cons_self own)
        simp [own, rest]
      · cases req <;> simp [own, rest]

/-- Responses are written in the order in which the requests are completed: one that is
refused at once, the others at their first reply or their timeout. Each request is
completed once or waits; and the `k`-th response answers the `k`-th request exactly
when the requests are completed in their order. -/
theorem responses_in_completion_order {β : Type} (parse : List Byte → Option Call)
    (methods : String → Option β) (events : List (HttpEvent β))
    (fits : Front.RunFits Front.Latest accesshttp Front.init
      (events.map (HttpEvent.front parse methods))) :
    let front := Front.init.run accesshttp (events.map (HttpEvent.front parse methods))
    let router := Router.empty.run
      ((events.map (HttpEvent.front parse methods)).flatMap Front.Event.route)
    ∀ conn, (front.svr.openAt conn).isSome →
      responses front conn = (router.finished conn).map some ∧
      (router.finished conn).Nodup ∧
      (∀ req, req ∈ requests front conn ↔
        req ∈ router.finished conn ∨ router.owner[req]? = some conn ∧ req ∈ router.pending) ∧
      (∀ req ∈ router.finished conn, req ∉ router.pending) ∧
      (InOrder front conn ↔ router.finished conn <+: requests front conn) := by
  intro front router conn opened
  obtain ⟨sim, ok⟩ := Front.Sim.init.run accesshttp .empty fits
  change Front.Sim front router at sim
  change router.Ok at ok
  have isOpen := (sim.opened conn).mpr opened
  have nodup := List.nodup_append.mp ok.nodup
  have written : responses front conn = (router.finished conn).map some := by
    have good : ∀ one ∈ front.sent, one.conn = conn → one.req ≠ none := by
      rintro one mem rfl none_
      exact (sim.malformed one mem none_).1 isOpen
    unfold responses
    rw [responses_eq good, sim.sent, ← ok.told conn isOpen]
    rfl
  have owner (req : ℕ) : front.issued[req]?.map Issue.conn = router.owner[req]? := by
    rw [sim.owner, List.getElem?_map]
  refine ⟨written, nodup.1.filter _, ?_, ?_, ?_⟩
  · intro req
    have all := ok.all.mem_iff (a := req)
    have length : front.issued.length = router.owner.length := by
      rw [sim.owner, List.length_map]
    unfold requests Router.finished
    rw [List.mem_filter, List.mem_filter, decide_eq_true_iff, decide_eq_true_iff, owner, length,
      ← all, List.mem_append]
    tauto
  · intro req mem pending
    exact nodup.2.2 req (List.mem_filter.mp mem).1 req pending rfl
  · unfold InOrder
    rw [written]
    exact List.prefix_map_iff_of_injective (Option.some_injective ℕ)

/-- Two requests of one connection, of which the second is replied to first. -/
def overtaking : List (HttpEvent Unit) :=
  let request : HttpRequest := ⟨1, 1, httpPost, ∅, some [47], some []⟩
  [.connect 0, .request 0 request (fun _ => true) false, .request 0 request (fun _ => true) false,
    .reply 1 [] false, .reply 0 [] false]

theorem overtaking_fits : Front.RunFits Front.Latest accesshttp Front.init
    (overtaking.map (HttpEvent.front (fun _ => some ⟨0, ""⟩) (fun _ => some ()))) := by
  have latest {front : Front} (issued : front.issued = [⟨0, some 1⟩, ⟨0, some 2⟩]) (req : ℕ) :
      front.Latest req := by
    intro later sequence after own same
    unfold Front.sequenceOf at own same
    rw [issued] at own same
    rcases later with _ | _ | later
    · cases after
    · obtain rfl : req = 0 := by omega
      exact absurd (own.trans same.symm) (by decide)
    · cases same
  have room {svr : NwSvr} (few : svr.cache.free.length < svr.cache.freeTotal) :
      svr.cache.Room := Or.inl few
  have few {state : NwState StateInfo} (n : ℕ) (count : nwStateCount state = n)
      (small : n < 2 ^ 32 - 1) : nwStateCount state < 2 ^ 32 - 1 := count ▸ small
  exact ⟨⟨room (by decide), fun _ => rfl, by decide⟩, ⟨room (by decide), few 0 rfl (by decide)⟩,
    ⟨room (by decide), few 1 rfl (by decide)⟩, ⟨room (by decide), latest rfl 1⟩,
    ⟨room (by decide), latest rfl 0⟩, trivial⟩

theorem responses_in_completion_order_small :
    responses (Front.init.run accesshttp
      (overtaking.map (HttpEvent.front (fun _ => some ⟨0, ""⟩) (fun _ => some ())))) 0 =
        ((Router.empty.run ((overtaking.map (HttpEvent.front (fun _ => some ⟨0, ""⟩)
          (fun _ => some ()))).flatMap Front.Event.route)).finished 0).map some :=
  (responses_in_completion_order (fun _ => some ⟨0, ""⟩) (fun _ => some ()) overtaking
    overtaking_fits 0 rfl).1

/-- A response may overtake another. -/
theorem responses_not_always_in_order :
    ¬∀ (parse : List Byte → Option Call) (methods : String → Option Unit)
      (events : List (HttpEvent Unit)),
      Front.RunFits Front.Latest accesshttp Front.init
        (events.map (HttpEvent.front parse methods)) →
      let front := Front.init.run accesshttp (events.map (HttpEvent.front parse methods))
      ∀ conn, (front.svr.openAt conn).isSome → InOrder front conn := by
  intro always
  have order := always _ _ overtaking overtaking_fits 0 rfl
  have written : responses (Front.init.run accesshttp
    (overtaking.map (HttpEvent.front (fun _ => some ⟨0, ""⟩) (fun _ => some ())))) 0 =
      [some 1, some 0] := rfl
  have made : requests (Front.init.run accesshttp
    (overtaking.map (HttpEvent.front (fun _ => some ⟨0, ""⟩) (fun _ => some ())))) 0 = [0, 1] := rfl
  unfold InOrder at order
  rw [written, made] at order
  revert order
  decide

end ViabtcServer.AccessHttp
