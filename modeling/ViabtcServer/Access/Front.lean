import ViabtcServer.Network.Connection
import ViabtcServer.Network.State
import ViabtcServer.Wire.Word

/-!
# Servers in front of the backends

What `accesshttp` and `accessws` have in common: a request of a client is given to a
backend under a sequence number, and the reply, or an error when none comes in time,
goes to the session that is remembered for it.
-/

namespace ViabtcServer.Access

open Network
open Wire (Byte)

/-! ## Messages -/

/-- The body of a message to a client: bytes, or an error that is rendered. -/
inductive Content
  | bytes (body : List Byte)
  | error (code : ℤ) (message : String) (id : BitVec 64)
  deriving DecidableEq

/-- What is written to a client; over HTTP it has a status. -/
structure Message where
  status : Option ℕ
  content : Content
  deriving DecidableEq

/-- What the two servers do differently with replies and timeouts. -/
structure Service where
  reply : List Byte → Message
  timeOut : BitVec 64 → Message

/-- `reply_error` of `ah_server.c`. -/
def replyError (id : BitVec 64) (code : ℤ) (message : String) (status : ℕ) : Message :=
  ⟨some status, .error code message id⟩

/-- `reply_time_out`. -/
def replyTimeOut (id : BitVec 64) : Message := replyError id 5 "service timeout" 504

/-- `on_backend_recv_pkg` and `on_state_timeout` of `ah_server.c`. -/
def accesshttp : Service where
  reply body := ⟨some 200, .bytes body⟩
  timeOut := replyTimeOut

/-- `send_error` of `aw_server.c`. -/
def sendError (id : BitVec 64) (code : ℤ) (message : String) : Message :=
  ⟨none, .error code message id⟩

/-- `send_error_service_timeout`. -/
def sendErrorServiceTimeout (id : BitVec 64) : Message := sendError id 5 "service timeout"

/-- `on_backend_recv_pkg` and `on_timeout` of `aw_server.c`. -/
def accessws : Service where
  reply body := ⟨none, .bytes body⟩
  timeOut := sendErrorServiceTimeout

/-- What a handler makes of a request. -/
inductive Handling
  /-- It is given to a backend. -/
  | forward (id : BitVec 64)
  /-- It is answered at once. -/
  | answer (message : Message)
  /-- It is malformed: the connection is closed, perhaps with a message. -/
  | refuse (message : Option Message)
  /-- It is left alone. -/
  | ignore

/-! ## State -/

/-- `state_info` of `ah_server.c` and `state_data` of `aw_server.c`, with the number of
the request. -/
structure StateInfo where
  ses : Addr
  sesId : BitVec 64
  requestId : BitVec 64
  req : ℕ

/-- A request: its connection, and the sequence number the backend was given. -/
structure Issue where
  conn : ℕ
  sequence : Option (BitVec 32)

/-- What was handed to `nw_ses_send`: for which connection, and for which request. -/
structure Sent where
  conn : ℕ
  req : Option ℕ
  message : Message

/-- The server, the requests it had so far, and what it sent. -/
structure Front where
  svr : NwSvr
  state : NwState StateInfo
  issued : List Issue
  sent : List Sent

def Front.init : Front := ⟨.empty, .empty, [], []⟩

namespace Front

/-! ## Handlers -/

/-- `nw_ses_send`; when it `fails`, `on_error` closes the session. -/
def send (front : Front) (addr : Addr) (req : Option ℕ) (message : Message) (fails : Bool) :
    Front :=
  match front.svr.mem addr with
  | none => front
  | some ses =>
      { front with
        sent := front.sent ++ [⟨ses.conn, req, message⟩]
        svr := if fails then nwSvrCloseSes front.svr addr else front.svr }

/-- A request is given to a backend: `nw_state_add`, and `rpc_clt_send` with the
sequence number. -/
def forward (front : Front) (conn : ℕ) (addr : Addr) (id : BitVec 64) : Front :=
  let info : StateInfo := ⟨addr, (front.svr.idAt addr).getD 0, id, front.issued.length⟩
  match nwStateAdd front.state 0 info with
  | none => front
  | some (sequence, state) =>
      { front with state := state, issued := front.issued ++ [⟨conn, some sequence⟩] }

/-- A request of the session at `addr`. -/
def handle (front : Front) (conn : ℕ) (addr : Addr) (handling : Handling) (fails : Bool) :
    Front :=
  match handling with
  | .forward id => front.forward conn addr id
  | .answer message =>
      let req := front.issued.length
      let front : Front := { front with issued := front.issued ++ [⟨conn, none⟩] }
      front.send addr (some req) message fails
  | .refuse message =>
      let front := match message with
        | none => front
        | some message => front.send addr none message fails
      { front with svr := nwSvrCloseSes front.svr addr }
  | .ignore => front

/-- What is sent for an entry, if the session it remembers is still there. -/
def deliver (front : Front) (info : StateInfo) (req : ℕ) (message : Message) (fails : Bool) :
    Front :=
  if front.svr.idAt info.ses = some info.sesId then
    front.send info.ses (some req) message fails
  else front

/-- `on_backend_recv_pkg` for a reply to the request `req`. -/
def onBackendRecvPkg (service : Service) (front : Front) (sequence : BitVec 32) (req : ℕ)
    (body : List Byte) (fails : Bool) : Front :=
  match nwStateGet front.state sequence with
  | none => front
  | some info =>
      let front := front.deliver info req (service.reply body) fails
      { front with state := nwStateDel front.state sequence }

/-- `on_timeout` of `nw_state.c` with that of the server. -/
def onTimeout (service : Service) (front : Front) (sequence : BitVec 32) (info : StateInfo)
    (fails : Bool) : Front :=
  let front := front.deliver info info.req (service.timeOut info.requestId) fails
  { front with state := nwStateDel front.state sequence }

/-! ## Runs -/

/-- What happens: `fresh` is what `malloc` would return, and `fails` says that sending
closes the session. -/
inductive Event
  /-- A client connects. -/
  | connect (fresh : Addr)
  /-- A connection is closed, by whichever side and for whatever reason. -/
  | close (conn : ℕ)
  /-- A client makes a request. -/
  | request (conn : ℕ) (handling : Handling) (fails : Bool)
  /-- A backend replies to a request, perhaps not for the first time. -/
  | reply (req : ℕ) (body : List Byte) (fails : Bool)
  /-- The timer of a request. -/
  | timeout (req : ℕ) (fails : Bool)

/-- The sequence number a request was given. -/
def sequenceOf (front : Front) (req : ℕ) : Option (BitVec 32) :=
  front.issued[req]?.bind Issue.sequence

def step (service : Service) (front : Front) : Event → Front
  | .connect fresh => { front with svr := nwSvrAddSes front.svr fresh }
  | .close conn =>
      match front.svr.openAt conn with
      | none => front
      | some addr => { front with svr := nwSvrCloseSes front.svr addr }
  | .request conn handling fails =>
      match front.svr.openAt conn with
      | none => front
      | some addr => front.handle conn addr handling fails
  | .reply req body fails =>
      match front.sequenceOf req with
      | none => front
      | some sequence => onBackendRecvPkg service front sequence req body fails
  | .timeout req fails =>
      match front.sequenceOf req with
      | none => front
      | some sequence =>
          match nwStateGet front.state sequence with
          | none => front
          | some info =>
              -- the timer of a request that is not waiting was stopped
              if info.req = req then onTimeout service front sequence info fails else front

def run (service : Service) (front : Front) (events : List Event) : Front :=
  events.foldl (step service) front

/-- No later request was given the sequence number of this one. -/
def Latest (front : Front) (req : ℕ) : Prop :=
  ∀ later sequence, req < later → front.sequenceOf req = some sequence →
    front.sequenceOf later ≠ some sequence

/-- At most `n` requests were made after this one. -/
def Within (n : ℕ) (front : Front) (req : ℕ) : Prop :=
  front.issued.length ≤ req + 1 + n

/-- What is relied on: `malloc` returns memory that is not in use, the ids of
connections and the sequence numbers do not run out, the memory of closed sessions
stays in the cache, and a reply is `timely`. -/
def Fits (timely : Front → ℕ → Prop) (front : Front) (event : Event) : Prop :=
  front.svr.cache.Room ∧
    match event with
    | .connect fresh =>
        (front.svr.cache.free = [] → front.svr.mem fresh = none) ∧
          front.svr.addrs.length + 1 < 2 ^ 64
    | .request _ (.forward _) _ => nwStateCount front.state < 2 ^ 32 - 1
    | .reply req _ _ => timely front req
    | _ => True

/-- All events of a run are as they should be. -/
def RunFits (timely : Front → ℕ → Prop) (service : Service) : Front → List Event → Prop
  | _, [] => True
  | front, event :: events =>
      front.Fits timely event ∧ RunFits timely service (front.step service event) events

end Front

end ViabtcServer.Access
