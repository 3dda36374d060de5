import ViabtcServer.MarketPrice.Kline
import ViabtcServer.MatchEngine.Core

/-!
# The market price server

The process counts deal messages into the k-lines of their markets and writes
what changed to Redis every ten seconds, the offset of the last message at the
end. A command may fail with or without having been executed, and the process
may die at any of them.
-/

namespace ViabtcServer.MarketPrice

open Decimal Container MatchEngine

/-! ## Settings -/

/-- The global `settings`, as far as `mp_message.c` reads them. -/
class Settings where
  secMax : ℤ
  minMax : ℤ
  hourMax : ℤ

/-- The local time zone: the date `localtime` gives, and what `mktime` makes of
a date at midnight. -/
class LocalTime where
  date : ℤ → ℤ × ℤ × ℤ
  mktime : ℤ × ℤ × ℤ → ℤ

/-- `MARKET_DEALS_MAX`. -/
def marketDealsMax : ℕ := 10000

/-! ## Markets -/

/-- `struct update_key`, compared byte by byte; `padding` is the unset gap before
the timestamp. -/
structure UpdateKey where
  klineType : KlineType
  padding : ℕ
  timestamp : ℤ
  deriving DecidableEq

/-- A deal as it is listed for clients. -/
structure DealJson where
  id : ℤ
  time : ℚ
  price : String
  amount : String
  type : String
  deriving DecidableEq

/-- `struct market_info`. The k-lines are the dictionaries `sec`, `min`, `hour` and
`day`; `updateTime` is zero until the first deal. -/
structure MarketInfo where
  name : String
  last : Mpd
  klines : KlineType → Dict ℤ KlineInfo
  update : Dict UpdateKey Unit
  /-- The deals Redis has not got yet, oldest first. -/
  deals : List DealJson
  /-- The recent deals, newest first. -/
  dealsJson : List DealJson
  updateTime : Time

/-- The globals `dict_market`, `last_flush` and `last_offset`. -/
structure State where
  markets : Dict String MarketInfo
  lastFlush : Time
  lastOffset : ℤ

/-- `create_market`, before it enters `dict_market`. -/
def createMarket (market : String) : MarketInfo where
  name := market
  last := mpdZero
  klines := fun _ => ∅
  update := ∅
  deals := []
  dealsJson := []
  updateTime := 0

/-- `add_update`; a key already there stays. -/
def addUpdate (update : Dict UpdateKey Unit) (type : KlineType) (padding : ℕ) (timestamp : ℤ) :
    Dict UpdateKey Unit :=
  (dictAdd update ⟨type, padding, timestamp⟩ ()).getD update

/-! ## Deals -/

/-- A valid deal message. -/
structure Deal where
  timestamp : ℚ
  market : String
  price : Mpd
  amount : Mpd
  side : Side
  id : ℤ

/-- `get_day_start`. -/
def getDayStart [LocalTime] (timestamp : ℤ) : ℤ :=
  LocalTime.mktime (LocalTime.date timestamp)

/-- The start of the k-line of each type that a second belongs to. -/
def klineStart [LocalTime] (type : KlineType) (timeSec : ℤ) : ℤ :=
  match type with
  | .sec => timeSec
  | .min => timeSec.tdiv 60 * 60
  | .hour => timeSec.tdiv 3600 * 3600
  | .day => getDayStart timeSec

section Update

variable [Libmpdec] [DecimalText] [LocalTime]

/-- The k-line of one type after a deal. -/
def updateKline (klines : Dict ℤ KlineInfo) (start : ℤ) (deal : Deal) : Dict ℤ KlineInfo :=
  let info := (dictFind klines start).getD (klineInfoNew deal.price)
  dictReplace klines start (klineInfoUpdate info deal.price deal.amount)

/-- The deal as `market_update` lists it. -/
def Deal.json (deal : Deal) : DealJson where
  id := deal.id
  time := deal.timestamp
  price := mpdText deal.price
  amount := mpdText deal.amount
  type := match deal.side with
    | .ask => "sell"
    | .bid => "buy"

/-- A new head of a list that is cut at `MARKET_DEALS_MAX`. -/
def addDeal (dealsJson : List DealJson) (deal : DealJson) : List DealJson :=
  let dealsJson := deal :: dealsJson
  if dealsJson.length > marketDealsMax then dealsJson.dropLast else dealsJson

/-- What `market_update` does to the market of the deal. -/
def MarketInfo.count (info : MarketInfo) (now : Time) (padding : KlineType → ℕ) (deal : Deal) :
    MarketInfo :=
  let timeSec := truncate deal.timestamp
  let mark (update : Dict UpdateKey Unit) (type : KlineType) : Dict UpdateKey Unit :=
    addUpdate update type (padding type) (klineStart type timeSec)
  { info with
    klines := fun type => updateKline (info.klines type) (klineStart type timeSec) deal
    update := mark (mark (mark (mark info.update .sec) .min) .hour) .day
    last := deal.price
    deals := info.deals ++ [deal.json]
    dealsJson := addDeal info.dealsJson deal.json
    updateTime := now }

/-- `market_update`. -/
def marketUpdate (s : State) (now : Time) (padding : KlineType → ℕ) (deal : Deal) : State :=
  let info := (dictFind s.markets deal.market).getD (createMarket deal.market)
  { s with markets := dictReplace s.markets deal.market (info.count now padding deal) }

end Update

/-! ## Messages -/

def jsonRealValue : Option Json → ℚ
  | some (.real value) => value
  | _ => 0

def jsonStringValue : Option Json → Option String
  | some (.string value) => some value
  | _ => none

def jsonIntegerValue : Option Json → ℤ
  | some (.integer value) => value
  | _ => 0

/-- The side is kept in an `int`. -/
def dealSide (value : ℤ) : Option Side :=
  if value.bmod (2 ^ 32) = 1 then some .ask
  else if value.bmod (2 ^ 32) = 2 then some .bid
  else none

/-- The checks of `on_deals_message`. -/
def readDeal [Libmpdec] : Json → Option Deal
  | .array items =>
      if items.length < 12 then none
      else if jsonRealValue items[0]? = 0 then none
      else do
        let market ← jsonStringValue items[1]?
        let price ← (jsonStringValue items[6]?).bind decimal
        let amount ← (jsonStringValue items[7]?).bind decimal
        let side ← dealSide (jsonIntegerValue items[10]?)
        if jsonIntegerValue items[11]? = 0 then none
        else
          some ⟨jsonRealValue items[0]?, market, price, amount, side, jsonIntegerValue items[11]?⟩
  | _ => none

/-- `on_deals_message`; `message` is what `json_loadb` makes of the text. An
invalid message leaves the offset as it is. -/
def onDealsMessage [Libmpdec] [DecimalText] [LocalTime] (s : State) (now : Time)
    (padding : KlineType → ℕ) (message : Option Json) (offset : ℤ) : State :=
  match message.bind readDeal with
  | none => s
  | some deal => { marketUpdate s now padding deal with lastOffset := offset }

/-! ## Redis -/

/-- The keys `k:<market>:1s` to `k:<market>:1d`, `k:<market>:last`,
`k:<market>:deals` and `k:offset`. -/
structure Redis where
  klines : String → KlineType → Dict ℤ (List String)
  last : String → Option String
  deals : String → List DealJson
  offset : Option ℤ

/-- The commands a flush sends. -/
inductive Command
  | hset (market : String) (key : UpdateKey)
  | setLast (market : String)
  | lpush (market : String)
  | ltrim (market : String)
  | setOffset
  deriving DecidableEq

/-- What becomes of a command: it is answered, or answered with an error, or the
reply is `NULL` after or before its execution, or the process dies. -/
inductive Answer
  | answered
  | error
  | lost
  | refused
  | died (executed : Bool)
  deriving DecidableEq

/-- Whether the server executes the command. -/
def Answer.executed : Answer → Bool
  | .answered => true
  | .lost => true
  | .died executed => executed
  | _ => false

/-- Redis as the process reaches it; a process that died sends nothing more. -/
structure Link where
  redis : Redis
  alive : Bool

section Flush

variable [DecimalText] (answers : Command → Answer)

/-- Send a command with what it does. -/
def Link.send (l : Link) (command : Command) (effect : Redis → Redis) : Link :=
  if l.alive then
    { redis := if (answers command).executed then effect l.redis else l.redis
      alive := match answers command with
        | .died _ => false
        | _ => true }
  else l

/-- `redisCmd`: whether there is a reply that is not an error. -/
def redisCmd (l : Link) (command : Command) (effect : Redis → Redis) : Bool × Link :=
  (l.alive && decide (answers command = .answered), l.send answers command effect)

/-- `redisCommandArgv`: whether there is a reply, be it an error. -/
def redisCommandArgv (l : Link) (command : Command) (effect : Redis → Redis) : Bool × Link :=
  (l.alive && decide (answers command = .answered ∨ answers command = .error),
    l.send answers command effect)

/-- `HSET`. -/
def Redis.hset (market : String) (type : KlineType) (timestamp : ℤ) (text : List String)
    (r : Redis) : Redis :=
  { r with
    klines := Function.update r.klines market
      (Function.update (r.klines market) type (dictReplace (r.klines market type) timestamp text)) }

/-- `LPUSH` of several values: the last one is the new head. -/
def Redis.lpush (market : String) (values : List DealJson) (r : Redis) : Redis :=
  { r with deals := Function.update r.deals market (values.reverse ++ r.deals market) }

/-- `LTRIM` to the first `MARKET_DEALS_MAX`. -/
def Redis.ltrim (market : String) (r : Redis) : Redis :=
  { r with deals := Function.update r.deals market ((r.deals market).take marketDealsMax) }

/-- `SET k:<market>:last`. -/
def Redis.setLast (market text : String) (r : Redis) : Redis :=
  { r with last := Function.update r.last market (some text) }

/-- `SET k:offset`. -/
def Redis.setOffset (offset : ℤ) (r : Redis) : Redis :=
  { r with offset := some offset }

/-- `flush_kline`; a k-line that was cleared meanwhile is an error. -/
def flushKline (l : Link) (info : MarketInfo) (key : UpdateKey) : Bool × Link :=
  match dictFind (info.klines key.klineType) key.timestamp with
  | none => (false, l)
  | some kinfo =>
      redisCmd answers l (.hset info.name key)
        (Redis.hset info.name key.klineType key.timestamp (klineToStr kinfo))

/-- The loop of `flush_update` over the keys: a k-line that was not written is
logged, and its key goes as well. -/
def flushUpdateKeys (info : MarketInfo) :
    List UpdateKey → Link → Dict UpdateKey Unit → Link × Dict UpdateKey Unit
  | [], l, update => (l, update)
  | key :: keys, l, update =>
      flushUpdateKeys info keys (flushKline answers l info key).2 (dictDelete update key)

/-- `flush_update`. -/
def flushUpdate (l : Link) (info : MarketInfo) : Link × MarketInfo :=
  let (l, update) := flushUpdateKeys answers info info.update.keys l info.update
  (l, { info with update := update })

/-- `flush_last`. -/
def flushLast (l : Link) (info : MarketInfo) : Bool × Link :=
  redisCmd answers l (.setLast info.name) (Redis.setLast info.name (mpdToSci info.last))

/-- `flush_deals`; nothing depends on the reply to `LTRIM`. -/
def flushDeals (l : Link) (info : MarketInfo) : Bool × Link × MarketInfo :=
  let (ok, l) :=
    redisCommandArgv answers l (.lpush info.name) (Redis.lpush info.name info.deals)
  if !ok then (false, l, info)
  else
    let (_, l) := redisCmd answers l (.ltrim info.name) (Redis.ltrim info.name)
    (true, l, { info with deals := [] })

/-- `flush_offset`. -/
def flushOffset (l : Link) (offset : ℤ) : Bool × Link :=
  redisCmd answers l .setOffset (Redis.setOffset offset)

/-- The last price and the deals of a market whose k-lines have been sent. -/
def flushPrices (l : Link) (info : MarketInfo) : Bool × Link × MarketInfo :=
  let (ok, l) := flushLast answers l info
  if !ok then (false, l, info)
  else if info.deals = [] then (true, l, info)
  else flushDeals answers l info

/-- One turn of the loop of `flush_market`. -/
def flushInfo (l : Link) (lastFlush : Time) (info : MarketInfo) : Bool × Link × MarketInfo :=
  if info.updateTime < lastFlush then (true, l, info)
  else
    let (l, info) := flushUpdate answers l info
    flushPrices answers l info

/-- The loop of `flush_market` over the markets. -/
def flushMarkets (lastFlush : Time) :
    List String → Link → Dict String MarketInfo → Bool × Link × Dict String MarketInfo
  | [], l, markets => (true, l, markets)
  | name :: names, l, markets =>
      match dictFind markets name with
      | none => flushMarkets lastFlush names l markets
      | some info =>
          let (ok, l, info) := flushInfo answers l lastFlush info
          let markets := dictReplace markets name info
          if !ok then (false, l, markets) else flushMarkets lastFlush names l markets

/-- `flush_market` at time `now`, once Redis is connected: whether it returns
zero, Redis and the process afterwards. -/
def flushMarket (now : Time) (r : Redis) (s : State) : Bool × Link × State :=
  let (ok, l, markets) := flushMarkets answers s.lastFlush s.markets.keys ⟨r, true⟩ s.markets
  if !ok then (false, l, { s with markets := markets })
  else
    let (ok, l) := flushOffset answers l s.lastOffset
    if !ok then (false, l, { s with markets := markets })
    else (true, l, { s with markets := markets, lastFlush := now })

end Flush

/-! ## Clearing -/

/-- `clear_dict`. -/
def clearDict (klines : Dict ℤ KlineInfo) (start : ℤ) : Dict ℤ KlineInfo :=
  klines.keys.foldl
    (fun klines timestamp => if timestamp < start then dictDelete klines timestamp else klines)
    klines

/-- Where the k-lines that are kept begin; days are kept for ever. -/
def keepStart [Settings] (now : ℤ) : KlineType → Option ℤ
  | .sec => some (now - Settings.secMax)
  | .min => some (now.tdiv 60 * 60 - Settings.minMax * 60)
  | .hour => some (now.tdiv 3600 * 3600 - Settings.hourMax * 3600)
  | .day => none

/-- What `clear_kline` does to one market. -/
def MarketInfo.clear [Settings] (info : MarketInfo) (now : ℤ) : MarketInfo :=
  { info with
    klines := fun type =>
      match keepStart now type with
      | none => info.klines type
      | some start => clearDict (info.klines type) start }

/-- The loop of `clear_kline`. -/
def clearMarkets [Settings] (now : ℤ) :
    List String → Dict String MarketInfo → Dict String MarketInfo
  | [], markets => markets
  | name :: names, markets =>
      match dictFind markets name with
      | none => clearMarkets now names markets
      | some info => clearMarkets now names (dictReplace markets name (info.clear now))

/-- `clear_kline`. -/
def clearKline [Settings] (s : State) (now : ℤ) : State :=
  { s with markets := clearMarkets now s.markets.keys s.markets }

end ViabtcServer.MarketPrice
