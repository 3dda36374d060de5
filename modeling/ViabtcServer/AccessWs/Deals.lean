import ViabtcServer.AccessWs.Feed
import ViabtcServer.Container.Log
import ViabtcServer.MarketPrice.Query

/-!
# The deals feed

`aw_deals.c` asks the market price server for the deals of a market that are newer than
the last one it knows, keeps the last hundred, and tells its subscribers what is new.
The market price server, the requests on their way and what the clients were sent are
part of the system.
-/

namespace ViabtcServer.AccessWs

open Container
open Network (Addr)
open MarketPrice (DealJson Deal KlineType getMarketDeals marketUpdate)

/-- `struct market_val`. -/
structure MarketVal where
  sessions : HashTable Addr
  /-- Newest first. -/
  deals : List DealJson
  lastId : ℤ

/-- `DEALS_QUERY_LIMIT`. -/
def dealsQueryLimit : ℕ := 100

/-- What a request is answered: the deals, or nothing where it is an error. `newer` is how
many deals were newer than the last one known when it was answered. -/
structure DealsAnswer where
  result : Option (List DealJson)
  newer : ℕ

/-- A request that `on_timer` sent, from its state entry on until the reply is taken. -/
structure DealsRequest where
  market : String
  lastId : ℤ
  answer : Option DealsAnswer

/-- The feed with what surrounds it: the market price server, all deals it was told, what
each session was sent about a market since it subscribed last, and the subscriptions. -/
structure DealsFeed where
  heads : Heads
  dictMarket : Dict String MarketVal
  requests : List DealsRequest
  prices : MarketPrice.State
  history : String → List DealJson
  inbox : Addr → String → List (List DealJson)
  subscribed : Addr → List String

namespace DealsFeed

def init (heads : Heads) : DealsFeed where
  heads := heads
  dictMarket := ∅
  requests := []
  prices := ⟨∅, 0, 0⟩
  history _ := []
  inbox _ _ := []
  subscribed _ := []

/-! ## Sessions -/

/-- `send_notify` of `deals.update`. -/
def sendDeals (market : String) (deals : List DealJson)
    (inbox : Addr → String → List (List DealJson)) (ses : Addr) :
    Addr → String → List (List DealJson) :=
  Function.update inbox ses
    (Function.update (inbox ses) market (inbox ses market ++ [deals]))

/-- `deals_unsubscribe`. -/
def dealsUnsubscribe (feed : DealsFeed) (ses : Addr) : DealsFeed :=
  { feed with
    dictMarket := feed.dictMarket.entries.foldl
      (dictFill fun _ val => some
        { val with sessions := val.sessions.delete (dictSesHashFunc feed.heads) ses }) ∅
    inbox := Function.update feed.inbox ses fun _ => []
    subscribed := Function.update feed.subscribed ses [] }

/-- `deals_subscribe`. -/
def dealsSubscribe (feed : DealsFeed) (ses : Addr) (market : String) : DealsFeed :=
  let val := (dictFind feed.dictMarket market).getD ⟨newSessions, [], 0⟩
  { feed with
    dictMarket := dictReplace feed.dictMarket market
      { val with sessions := val.sessions.add (dictSesHashFunc feed.heads) ses }
    subscribed := Function.update feed.subscribed ses (market :: feed.subscribed ses) }

/-- `deals_send_full`. -/
def dealsSendFull (feed : DealsFeed) (ses : Addr) (market : String) : DealsFeed :=
  match dictFind feed.dictMarket market with
  | none => feed
  | some val =>
      if val.deals.length = 0 then feed
      else { feed with inbox := sendDeals market val.deals feed.inbox ses }

/-- The first loop of `on_method_deals_subscribe`, and whether it went through all
parameters: a market is a name shorter than 16 bytes. -/
def subscribeAll (feed : DealsFeed) (ses : Addr) : List (Option String) → DealsFeed × Bool
  | [] => (feed, true)
  | none :: _ => (feed, false)
  | some market :: params =>
      if 16 ≤ market.utf8ByteSize then (feed, false)
      else (feed.dealsSubscribe ses market).subscribeAll ses params

/-- `on_method_deals_subscribe`, but for the answer to the request. -/
def onMethodDealsSubscribe (feed : DealsFeed) (ses : Addr) (params : List (Option String)) :
    DealsFeed :=
  match (feed.dealsUnsubscribe ses).subscribeAll ses params with
  | (feed, false) => feed
  | (feed, true) =>
      (params.filterMap id).foldl (fun feed market => feed.dealsSendFull ses market) feed

/-! ## Requests -/

/-- `on_timer`: keys nobody subscribes to are dropped, the others asked about. -/
def onTimer (feed : DealsFeed) : DealsFeed :=
  { feed with
    dictMarket := feed.dictMarket.entries.foldl
      (dictFill fun _ val => if val.sessions.keys.length = 0 then none else some val) ∅
    requests := feed.requests ++ feed.dictMarket.entries.filterMap fun entry =>
      if entry.2.sessions.keys.length = 0 then none else some ⟨entry.1, entry.2.lastId, none⟩ }

/-- `on_cmd_market_deals` for the request, unless it `fails` for another reason. -/
def onCmdMarketDeals (feed : DealsFeed) (request : DealsRequest) (fails : Bool) : DealsAnswer where
  result :=
    if fails then none
    else (dictFind feed.prices.markets request.market).map fun info =>
      getMarketDeals info dealsQueryLimit request.lastId
  newer := (behind DealJson.id (feed.history request.market) request.lastId).length

/-- A request is answered once. -/
def answerRequest (feed : DealsFeed) (i : ℕ) (fails : Bool) : DealsFeed :=
  { feed with
    requests := feed.requests.modify i fun request =>
      match request.answer with
      | some _ => request
      | none => { request with answer := some (feed.onCmdMarketDeals request fails) } }

/-- `on_order_deals_reply`. -/
def onOrderDealsReply (feed : DealsFeed) (market : String) (result : List DealJson) : DealsFeed :=
  match dictFind feed.dictMarket market with
  | none => feed
  | some obj =>
      match result with
      | [] => feed
      | first :: rest =>
          if first.id = 0 then feed
          else
            { feed with
              dictMarket := dictReplace feed.dictMarket market
                { obj with
                  lastId := first.id
                  deals := (first :: rest ++ obj.deals).take dealsQueryLimit }
              inbox := obj.sessions.keys.foldl (sendDeals market (first :: rest)) feed.inbox }

/-- `on_backend_recv_pkg`: an error drops the market. -/
def onBackendRecvPkg (feed : DealsFeed) (i : ℕ) : DealsFeed :=
  match feed.requests[i]? with
  | some ⟨market, _, some answer⟩ =>
      let feed := { feed with requests := feed.requests.eraseIdx i }
      match answer.result with
      | none => { feed with dictMarket := dictDelete feed.dictMarket market }
      | some result => feed.onOrderDealsReply market result
  | _ => feed

/-! ## Runs -/

/-- What happens to the system, in any order: requests are answered and replies taken
after any time. -/
inductive Event
  /-- libev changes the watcher of a session. -/
  | watch (ses : Addr) (head : List Wire.Byte)
  | subscribe (ses : Addr) (params : List (Option String))
  /-- A request to unsubscribe, or the end of the connection. -/
  | unsubscribe (ses : Addr)
  /-- The market price server is told of a deal. -/
  | deal (now : MatchEngine.Time) (padding : KlineType → ℕ) (deal : Deal)
  | timer
  | answer (i : ℕ) (fails : Bool)
  | reply (i : ℕ)
  /-- `on_timeout`: the state entry is gone, and a reply finds none. -/
  | timeout (i : ℕ)

section Step

variable [Decimal.Libmpdec] [Decimal.DecimalText] [MarketPrice.LocalTime]

def onDeal (feed : DealsFeed) (now : MatchEngine.Time) (padding : KlineType → ℕ) (deal : Deal) :
    DealsFeed :=
  { feed with
    prices := marketUpdate feed.prices now padding deal
    history := Function.update feed.history deal.market (feed.history deal.market ++ [deal.json]) }

def step (feed : DealsFeed) : Event → DealsFeed
  | .watch ses head => { feed with heads := Function.update feed.heads ses head }
  | .subscribe ses params => feed.onMethodDealsSubscribe ses params
  | .unsubscribe ses => feed.dealsUnsubscribe ses
  | .deal now padding deal => feed.onDeal now padding deal
  | .timer => feed.onTimer
  | .answer i fails => feed.answerRequest i fails
  | .reply i => feed.onBackendRecvPkg i
  | .timeout i => { feed with requests := feed.requests.eraseIdx i }

def run (feed : DealsFeed) (events : List Event) : DealsFeed :=
  events.foldl step feed

end Step

end DealsFeed

end ViabtcServer.AccessWs
