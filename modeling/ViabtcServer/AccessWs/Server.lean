import ViabtcServer.AccessWs.Sessions
import ViabtcServer.Network.State

/-!
# The websocket server

The clients of `accessws`: how they become those of a user, by a token or by a signature,
what they subscribe to, what is sent to them, and what closing does.
-/

namespace ViabtcServer.AccessWs

open Container Network

/-! ## Data -/

/-- A parameter of a request. -/
inductive Json
  | string (text : String)
  | integer (value : BitVec 64)
  | other

/-- `json_string_value`. -/
def Json.stringValue : Json → Option String
  | .string text => some text
  | _ => none

/-- `json_integer_value`. -/
def Json.integerValue : Json → BitVec 64
  | .integer value => value
  | _ => 0

/-- `struct clt_info` of `aw_server.h`. -/
structure CltInfo where
  auth : Bool
  userId : BitVec 32
  deriving DecidableEq

/-- The ways to become a user: `aw_auth.c` and `aw_sign.c`. -/
inductive Via
  | auth
  | sign
  deriving DecidableEq

/-- `struct state_data` of `aw_auth.c` and `aw_sign.c`. -/
structure StateData where
  ses : Addr
  sesId : BitVec 64
  requestId : BitVec 64
  info : Addr

/-- The feeds of a user: `aw_order.c` and `aw_asset.c`. -/
inductive Private
  | order
  | asset
  deriving DecidableEq

/-- `struct sub_unit`, with the connection that subscribed. -/
structure SubUnit where
  ses : Addr
  name : String
  conn : ℕ
  deriving DecidableEq

/-- `dict_sub`: the subscriptions of each user. -/
abbrev DictSub := Dict (BitVec 32) (List SubUnit)

/-- `struct state_data` of `aw_asset.c`. -/
structure BalanceQuery where
  userId : BitVec 32
  asset : String

/-- What is written to a client. -/
inductive Output
  | success (id : BitVec 64)
  | error (id : BitVec 64) (code : ℤ) (message : String)
  /-- `order.update` or `asset.update` for a user, and the connection that subscribed. -/
  | update (feed : Private) (userId : BitVec 32) (conn : ℕ)
  deriving DecidableEq

/-- What was sent: what the session was then, and its `clt_info`. -/
structure Sent where
  ses : NwSes
  info : Option CltInfo
  output : Output
  deriving DecidableEq

/-- `privdata` is that of the websocket connection, which is `NULL` until it is
upgraded. -/
structure Server where
  svr : NwSvr
  privdata : Addr → Option Addr
  privdataCache : NwCache
  infos : Addr → CltInfo
  contexts : Via → NwState StateData
  queries : NwState BalanceQuery
  board : Board
  dictSub : Private → DictSub
  sent : List Sent

/-! ## Subscriptions of a user -/

/-- `order_subscribe` and `asset_subscribe`. -/
def userSubscribe (dictSub : DictSub) (userId : BitVec 32) (unit : SubUnit) : DictSub :=
  let list := (dictFind dictSub userId).getD []
  -- `list_find` compares what the unit holds
  if list.any fun other => other.ses = unit.ses ∧ other.name = unit.name then
    dictReplace dictSub userId list
  else dictReplace dictSub userId (list ++ [unit])

/-- `order_unsubscribe` and `asset_unsubscribe`. -/
def userUnsubscribe (dictSub : DictSub) (userId : BitVec 32) (ses : Addr) : DictSub :=
  match dictFind dictSub userId with
  | none => dictSub
  | some list =>
      let list := list.filter (·.ses ≠ ses)
      if list.length = 0 then dictDelete dictSub userId else dictReplace dictSub userId list

/-- The loop of the subscribe handlers, and whether it went through all parameters: a
name must be shorter than 16 bytes. -/
def userSubscribeAll (dictSub : DictSub) (userId : BitVec 32) (ses : Addr) (conn : ℕ) :
    List Json → DictSub × Bool
  | [] => (dictSub, true)
  | param :: params =>
      match param.stringValue with
      | none => (dictSub, false)
      | some name =>
          if 16 ≤ name.utf8ByteSize then (dictSub, false)
          else userSubscribeAll (userSubscribe dictSub userId ⟨ses, name, conn⟩) userId ses conn
            params

namespace Server

def init (heads : Heads) : Server where
  svr := .empty
  privdata _ := none
  privdataCache := nwCacheCreate
  infos _ := ⟨false, 0⟩
  contexts _ := .empty
  queries := .empty
  board := .init heads
  dictSub _ := ∅
  sent := []

/-- The units of a user. -/
def units (server : Server) (feed : Private) (userId : BitVec 32) : List SubUnit :=
  (dictFind (server.dictSub feed) userId).getD []

/-! ## Closing -/

/-- What `on_close` does to the public feeds. -/
def closeFeeds (heads : Heads) (feeds : Feeds) (ses : Addr) : Feeds
  | .kline => klineUnsubscribe heads (feeds .kline) ses
  | .depth => depthUnsubscribe heads (feeds .depth) ses
  | .price => priceUnsubscribe heads (feeds .price) ses
  | .today => todayUnsubscribe heads (feeds .today) ses
  | .deals => dealsUnsubscribe heads (feeds .deals) ses
  -- there is no call of `state_unsubscribe`
  | .state => feeds .state

/-- Both lists of a user are left. -/
def leave (server : Server) (userId : BitVec 32) (ses : Addr) : Server :=
  { server with dictSub := fun feed => userUnsubscribe (server.dictSub feed) userId ses }

/-- `on_close`. -/
def onClose (server : Server) (ses info : Addr) : Server :=
  let server : Server :=
    { server with
      board := { server.board with
        feeds := closeFeeds server.board.heads server.board.feeds ses } }
  if (server.infos info).auth then server.leave (server.infos info).userId ses else server

/-- `nw_svr_close_ses`, with `on_connection_close` of `ut_ws_svr.c`. -/
def closeSes (server : Server) (addr : Addr) : Server :=
  if (server.svr.idAt addr).getD 0 = 0 then server
  else
    let server :=
      match server.privdata addr with
      | none => server
      | some info =>
          { server.onClose addr info with
            privdataCache := (nwCacheFree server.privdataCache info).1 }
    { server with svr := nwSvrCloseSes server.svr addr }

/-! ## Sending -/

/-- What is sent to a session; when it `fails`, `on_error` closes the session. -/
def send (server : Server) (addr : Addr) (output : Output) (fails : Bool) : Server :=
  match server.svr.mem addr with
  | none => server
  | some ses =>
      let sent : Sent := ⟨ses, (server.privdata addr).map server.infos, output⟩
      let server := { server with sent := server.sent ++ [sent] }
      if fails then server.closeSes addr else server

def sendErrorInvalidArgument (id : BitVec 64) : Output := .error id 1 "invalid argument"

def sendErrorInternalError (id : BitVec 64) : Output := .error id 2 "internal error"

def sendErrorServiceTimeout (id : BitVec 64) : Output := .error id 5 "service timeout"

def sendErrorRequireAuth (id : BitVec 64) : Output := .error id 6 "require authentication"

/-! ## Authentication -/

/-- A reply to an authentication request, `none` where a member is missing; of `data` its
`user_id`. -/
structure AuthReply where
  code : Option Json
  message : Option String
  data : Option Json

/-- The checks of `send_auth_request` and `send_sign_request`. -/
def acceptsParams : Via → List Json → Bool
  | .auth, [token, source] =>
      token.stringValue.isSome && source.stringValue.any fun source => source.utf8ByteSize < 32
  | .sign, [accessId, authorisation, tonce] =>
      accessId.stringValue.isSome && authorisation.stringValue.isSome && tonce.integerValue ≠ 0
  | _, _ => false

def setContext (server : Server) (via : Via) (context : NwState StateData) : Server :=
  { server with contexts := Function.update server.contexts via context }

/-- `send_auth_request` and `send_sign_request`. -/
def sendRequest (via : Via) (server : Server) (ses : Addr) (id : BitVec 64) (info : Addr)
    (params : List Json) (fails : Bool) : Server :=
  if !acceptsParams via params then server.send ses (sendErrorInvalidArgument id) fails
  else
    let data : StateData := ⟨ses, (server.svr.idAt ses).getD 0, id, info⟩
    match nwStateAdd (server.contexts via) 0 data with
    | none => server
    | some (_, context) => server.setContext via context

/-- What `on_result` does with a user id. -/
def become (server : Server) (data : StateData) (userId : BitVec 32) : Server :=
  let info := server.infos data.info
  let server :=
    if info.auth ∧ info.userId ≠ userId then server.leave info.userId data.ses else server
  { server with infos := Function.update server.infos data.info ⟨true, userId⟩ }

/-- `on_result` of `aw_auth.c` and of `aw_sign.c`. -/
def onResult (server : Server) (data : StateData) (result : Option AuthReply) (fails : Bool) :
    Server :=
  if server.svr.idAt data.ses ≠ some data.sesId then server
  else
    let error := server.send data.ses (sendErrorInternalError data.requestId) fails
    match result with
    | none => error
    | some result =>
        match result.code with
        | none => error
        | some code =>
            if code.integerValue.setWidth 32 ≠ 0 then
              match result.message with
              | none => error
              | some message => server.send data.ses (.error data.requestId 11 message) fails
            else
              match result.data with
              | none => error
              | some userId =>
                  let userId := userId.integerValue.setWidth 32
                  if userId = 0 then error
                  else (server.become data userId).send data.ses (.success data.requestId) fails

/-- `on_finish`: the result for a request comes from a thread of the pool. -/
def onFinish (via : Via) (server : Server) (sequence : BitVec 32) (result : Option AuthReply)
    (fails : Bool) : Server :=
  match nwStateGet (server.contexts via) sequence with
  | none => server
  | some data =>
      let server := server.onResult data result fails
      server.setContext via (nwStateDel (server.contexts via) sequence)

/-- `on_timeout` of the two, as `nw_state.c` calls it. -/
def onTimeout (via : Via) (server : Server) (sequence : BitVec 32) (fails : Bool) : Server :=
  match nwStateGet (server.contexts via) sequence with
  | none => server
  | some data =>
      let server :=
        if server.svr.idAt data.ses = some data.sesId then
          server.send data.ses (sendErrorServiceTimeout data.requestId) fails
        else server
      server.setContext via (nwStateDel (server.contexts via) sequence)

/-! ## Requests about the feeds of a user -/

def setDictSub (server : Server) (feed : Private) (dictSub : DictSub) : Server :=
  { server with dictSub := Function.update server.dictSub feed dictSub }

/-- `on_method_order_subscribe` and `on_method_asset_subscribe`. -/
def onMethodSubscribe (feed : Private) (server : Server) (ses : Addr) (conn : ℕ)
    (id : BitVec 64) (info : Addr) (params : List Json) (fails : Bool) : Server :=
  if !(server.infos info).auth then server.send ses (sendErrorRequireAuth id) fails
  else
    let userId := (server.infos info).userId
    let dictSub := userUnsubscribe (server.dictSub feed) userId ses
    let (dictSub, all) := userSubscribeAll dictSub userId ses conn params
    let server := server.setDictSub feed dictSub
    server.send ses (if all then .success id else sendErrorInvalidArgument id) fails

/-- `on_method_order_unsubscribe` and `on_method_asset_unsubscribe`. -/
def onMethodUnsubscribe (feed : Private) (server : Server) (ses : Addr) (id : BitVec 64)
    (info : Addr) (fails : Bool) : Server :=
  if !(server.infos info).auth then server.send ses (sendErrorRequireAuth id) fails
  else
    let dictSub := userUnsubscribe (server.dictSub feed) (server.infos info).userId ses
    (server.setDictSub feed dictSub).send ses (.success id) fails

/-! ## Notifications -/

/-- What happens while a list is gone through: to which sessions sending fails, and what
is found in the memory of nodes that were freed. -/
structure Delivery where
  fails : Addr → Bool
  freed : List SubUnit

/-- `send_notify` to a unit with this name. -/
def notifyUnit (feed : Private) (userId : BitVec 32) (name : String) (delivery : Delivery)
    (server : Server) (unit : SubUnit) : Server :=
  if unit.name = name then
    server.send unit.ses (.update feed userId unit.conn) (delivery.fails unit.ses)
  else server

/-- The loop over the list of a user. `list_next` remembers the node that is next before
a unit is notified; when that node is gone afterwards, the loop goes on in memory that
was freed. -/
def notify (feed : Private) (userId : BitVec 32) (name : String) (delivery : Delivery) :
    Server → List SubUnit → Server
  | server, [] => server
  | server, unit :: rest =>
      -- a node that is not in the list any more was never reached
      if unit ∉ server.units feed userId then notify feed userId name delivery server rest
      else
        let after := notifyUnit feed userId name delivery server unit
        match rest.find? (· ∈ server.units feed userId) with
        | none => after
        | some next =>
            if next ∈ after.units feed userId then notify feed userId name delivery after rest
            else delivery.freed.foldl (notifyUnit feed userId name delivery) after

/-- The loop over a list stays in the list: when sending to a session fails, the node
that is next belongs to another session. The sessions that were `closed` before have no
nodes any more. -/
def Steady (name : String) (delivery : Delivery) : List Addr → List SubUnit → Prop
  | _, [] => True
  | closed, unit :: rest =>
      if unit.ses ∈ closed then Steady name delivery closed rest
      else if unit.name = name ∧ delivery.fails unit.ses = true then
        (∀ next, rest.find? (·.ses ∉ closed) = some next → next.ses ≠ unit.ses) ∧
          Steady name delivery (unit.ses :: closed) rest
      else Steady name delivery closed rest

/-- `order_on_update`, with the `market` of the order. -/
def orderOnUpdate (server : Server) (userId : BitVec 32) (market : Option String)
    (delivery : Delivery) : Server :=
  match market with
  | none => server
  | some market =>
      notify .order userId market delivery server (server.units .order userId)

/-- `asset_on_update`. -/
def assetOnUpdate (server : Server) (userId : BitVec 32) (asset : String) : Server :=
  if (server.units .asset userId).any fun unit => unit.name = asset then
    match nwStateAdd server.queries 0 ⟨userId, asset⟩ with
    | none => server
    | some (_, queries) => { server with queries := queries }
  else server

/-- `on_backend_recv_pkg` of `aw_asset.c`, whether the reply is one to a balance query
and has a result. -/
def onBalanceReply (server : Server) (sequence : BitVec 32) (accepted : Bool)
    (delivery : Delivery) : Server :=
  match nwStateGet server.queries sequence with
  | none => server
  | some query =>
      let server :=
        if accepted then
          notify .asset query.userId query.asset delivery server
            (server.units .asset query.userId)
        else server
      { server with queries := nwStateDel server.queries sequence }

/-! ## Runs -/

/-- What happens; `fresh` is what `malloc` would return. -/
inductive Event
  /-- A connection is accepted. -/
  | connect (fresh : Addr)
  /-- It becomes a websocket connection. -/
  | upgrade (conn : ℕ) (fresh : Addr)
  /-- A connection is closed, by whichever side and for whatever reason. -/
  | close (conn : ℕ)
  /-- libev changes the watcher of a session. -/
  | watch (ses : Addr) (head : List Wire.Byte)
  | subscribeFeed (conn : ℕ) (kind : Kind) (key : kind.Key)
  | unsubscribeFeed (conn : ℕ) (kind : Kind)
  /-- `server.auth` and `server.sign`. -/
  | request (via : Via) (conn : ℕ) (id : BitVec 64) (params : List Json) (fails : Bool)
  | finish (via : Via) (sequence : BitVec 32) (result : Option AuthReply) (fails : Bool)
  | timeout (via : Via) (sequence : BitVec 32) (fails : Bool)
  | subscribe (feed : Private) (conn : ℕ) (id : BitVec 64) (params : List Json) (fails : Bool)
  | unsubscribe (feed : Private) (conn : ℕ) (id : BitVec 64) (fails : Bool)
  | orderUpdate (userId : BitVec 32) (market : Option String) (delivery : Delivery)
  | assetUpdate (userId : BitVec 32) (asset : String)
  | balanceReply (sequence : BitVec 32) (accepted : Bool) (delivery : Delivery)
  | balanceTimeout (sequence : BitVec 32)

/-- The session of an open connection that is upgraded, and its `clt_info`. -/
def client (server : Server) (conn : ℕ) : Option (Addr × Addr) :=
  (server.svr.openAt conn).bind fun addr => (server.privdata addr).map fun info => (addr, info)

/-- A client is served, if it is still there. -/
def serve (server : Server) (conn : ℕ) (handler : Addr → Addr → Server) : Server :=
  match server.client conn with
  | none => server
  | some (ses, info) => handler ses info

/-- `on_new_connection`. -/
def onNewConnection (server : Server) (fresh : Addr) : Server :=
  let addr := (nwCacheAlloc server.svr.cache fresh).1
  { server with
    svr := nwSvrAddSes server.svr fresh
    privdata := Function.update server.privdata addr none }

/-- What `on_http_message_complete` does for a request to upgrade, with `on_upgrade`. -/
def onUpgrade (server : Server) (addr : Addr) (fresh : Addr) : Server :=
  let (info, cache) := nwCacheAlloc server.privdataCache fresh
  { server with
    privdata := Function.update server.privdata addr (some info)
    privdataCache := cache
    infos := Function.update server.infos info ⟨false, 0⟩ }

def step (settings : Settings) (server : Server) : Event → Server
  | .connect fresh => server.onNewConnection fresh
  | .upgrade conn fresh =>
      match server.svr.openAt conn with
      | none => server
      | some addr =>
          -- a connection is upgraded once
          if (server.privdata addr).isSome then server else server.onUpgrade addr fresh
  | .close conn =>
      match server.svr.openAt conn with
      | none => server
      | some addr => server.closeSes addr
  | .watch ses head => { server with board := server.board.step settings (.watch ses head) }
  | .subscribeFeed conn kind key =>
      server.serve conn fun ses _ =>
        { server with board := server.board.step settings (.subscribe ses kind key) }
  | .unsubscribeFeed conn kind =>
      server.serve conn fun ses _ =>
        { server with board := server.board.step settings (.unsubscribe ses kind) }
  | .request via conn id params fails =>
      server.serve conn fun ses info => sendRequest via server ses id info params fails
  | .finish via sequence result fails => onFinish via server sequence result fails
  | .timeout via sequence fails => onTimeout via server sequence fails
  | .subscribe feed conn id params fails =>
      server.serve conn fun ses info =>
        onMethodSubscribe feed server ses conn id info params fails
  | .unsubscribe feed conn id fails =>
      server.serve conn fun ses info => onMethodUnsubscribe feed server ses id info fails
  | .orderUpdate userId market delivery => server.orderOnUpdate userId market delivery
  | .assetUpdate userId asset => server.assetOnUpdate userId asset
  | .balanceReply sequence accepted delivery => server.onBalanceReply sequence accepted delivery
  | .balanceTimeout sequence =>
      { server with queries := nwStateDel server.queries sequence }

def run (settings : Settings) (server : Server) (events : List Event) : Server :=
  events.foldl (step settings) server

/-- What is relied on: `malloc` returns memory that is not in use, the ids of connections
do not run out, the memory of a session that a request remembers has not been given back,
and the loops over the lists stay in them. -/
def Fits (server : Server) : Event → Prop
  | .connect fresh =>
      (server.svr.cache.free = [] → server.svr.mem fresh = none) ∧
        server.svr.addrs.length + 1 < 2 ^ 64
  | .upgrade _ fresh =>
      server.privdataCache.free = [] → ∀ conn ses, server.client conn ≠ some (ses, fresh)
  | .finish via sequence _ _ | .timeout via sequence _ =>
      ∀ data, nwStateGet (server.contexts via) sequence = some data →
        (server.svr.mem data.ses).isSome
  | .orderUpdate userId market delivery =>
      ∀ market' ∈ market, Steady market' delivery [] (server.units .order userId)
  | .balanceReply sequence accepted delivery =>
      accepted = true → ∀ query ∈ nwStateGet server.queries sequence,
        Steady query.asset delivery [] (server.units .asset query.userId)
  | _ => True

/-- All events of a run are as they should be. -/
def RunFits (settings : Settings) : Server → List Event → Prop
  | _, [] => True
  | server, event :: events =>
      server.Fits event ∧ RunFits settings (server.step settings event) events

end Server

end ViabtcServer.AccessWs
