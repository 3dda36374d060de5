import ViabtcServer.Container.Dict
import ViabtcServer.Container.SkipList
import ViabtcServer.Decimal.Libmpdec
import Mathlib.Logic.Function.Basic

/-!
# The state of the matching engine

The data types of the engine. Orders live on a heap and are shared: the id
dictionary, the user lists and the two sides of a book hold references to the
same object. Counters are natural numbers; they start from zero or a recorded
slice and grow by one for each order, deal or log entry.
-/

namespace ViabtcServer.MatchEngine

open Decimal Container

/-- `ASSET_NAME_MAX_LEN`, checked by `load_assets`. -/
def assetNameMaxLen : ℕ := 15

/-- `BUSINESS_NAME_MAX_LEN`. -/
def businessNameMaxLen : ℕ := 31

/-- `SOURCE_MAX_LEN`. -/
def sourceMaxLen : ℕ := 31

/-! ## Settings -/

/-- `struct asset`. The length of the name is what lets `strncpy` copy it whole. -/
structure AssetConf where
  name : String
  precSave : ℤ
  precShow : ℤ
  name_le : name.utf8ByteSize ≤ assetNameMaxLen

/-- `struct market`. -/
structure MarketConf where
  name : String
  stock : String
  money : String
  feePrec : ℤ
  stockPrec : ℤ
  moneyPrec : ℤ
  minAmount : Mpd

/-- The global `settings`, as far as the engine reads them. -/
class Settings where
  assets : List AssetConf
  markets : List MarketConf

/-- `struct asset_type`. -/
structure AssetType where
  precSave : ℤ
  precShow : ℤ

/-! ## Orders -/

/-- Microseconds since the epoch, as `current_timestamp` reads them. -/
abbrev Time := ℕ

/-- `MARKET_ORDER_SIDE_ASK` and `MARKET_ORDER_SIDE_BID`. -/
inductive Side
  | ask
  | bid
  deriving DecidableEq, Repr

/-- The other side. -/
def Side.opposite : Side → Side
  | .ask => .bid
  | .bid => .ask

/-- The code of a side in messages and tables. -/
def Side.code : Side → ℕ
  | .ask => 1
  | .bid => 2

/-- `MARKET_ORDER_TYPE_LIMIT` and `MARKET_ORDER_TYPE_MARKET`. -/
inductive OrderType
  | limit
  | market
  deriving DecidableEq, Repr

/-- `order_t`. -/
structure Order where
  id : ℕ
  type : OrderType
  side : Side
  createTime : Time
  updateTime : Time
  userId : ℕ
  market : String
  /-- `NULL` on an order loaded from a slice. -/
  source : Option String
  price : Mpd
  amount : Mpd
  takerFee : Mpd
  makerFee : Mpd
  left : Mpd
  freeze : Mpd
  dealStock : Mpd
  dealMoney : Mpd
  dealFee : Mpd
  deriving DecidableEq, Repr

/-- The address of an order. -/
abbrev Ref := ℕ

/-- `market_t`: the configuration and the four indexes. -/
structure Market extends MarketConf where
  orders : Dict ℕ Ref
  users : Dict ℕ (List Ref)
  asks : List Ref
  bids : List Ref

namespace Market

/-- The side of the book that holds orders of `side`. -/
def book (m : Market) : Side → List Ref
  | .ask => m.asks
  | .bid => m.bids

def setBook (m : Market) (side : Side) (list : List Ref) : Market :=
  match side with
  | .ask => { m with asks := list }
  | .bid => { m with bids := list }

/-- The list of one user; a user without entry has no orders. -/
def userList (m : Market) (user : ℕ) : List Ref :=
  (dictFind m.users user).getD []

end Market

/-- The asset an order of `side` pays with, frozen while it rests. -/
def MarketConf.gives (m : MarketConf) : Side → String
  | .ask => m.stock
  | .bid => m.money

/-- The asset an order of `side` receives. -/
def MarketConf.gets (m : MarketConf) : Side → String
  | .ask => m.money
  | .bid => m.stock

/-! ## Balances -/

/-- `BALANCE_TYPE_AVAILABLE` and `BALANCE_TYPE_FREEZE`. -/
inductive BalanceType
  | available
  | freeze
  deriving DecidableEq, Repr

/-- `struct balance_key`. -/
structure BalanceKey where
  userId : ℕ
  type : BalanceType
  asset : String
  deriving DecidableEq, Repr

/-- `dict_balance`. `exact` is a ghost: it tells that every addition,
subtraction and multiplication so far returned the true value. -/
structure Ledger where
  balances : Dict BalanceKey Mpd
  exact : Bool := true

/-- The number stored under a key; a missing entry stands for zero. -/
def Ledger.holds (l : Ledger) (key : BalanceKey) : ℚ :=
  ((dictFind l.balances key).map Mpd.value).getD 0

/-- The sum of both balances of a user. -/
def Ledger.owns (l : Ledger) (user : ℕ) (asset : String) : ℚ :=
  l.holds ⟨user, .available, asset⟩ + l.holds ⟨user, .freeze, asset⟩

/-- Record whether `result` is the true value `expected` of an operation. -/
def Ledger.observe (ledger : Ledger) (result : Mpd) (expected : ℚ) : Ledger :=
  { ledger with exact := ledger.exact && decide (result.value = expected) }

/-! ## Deals and what is written about them -/

/-- One fill of a taker by a maker. -/
structure Fill where
  dealId : ℕ
  takerSide : Side
  askId : ℕ
  askUser : ℕ
  bidId : ℕ
  bidUser : ℕ
  price : Mpd
  amount : Mpd
  deal : Mpd
  askFee : Mpd
  bidFee : Mpd
  deriving DecidableEq, Repr

namespace Fill

/-- What the party of `side` pays. -/
def pays (f : Fill) : Side → Mpd
  | .ask => f.amount
  | .bid => f.deal

/-- What the party of `side` receives before its fee. -/
def receives (f : Fill) : Side → Mpd
  | .ask => f.deal
  | .bid => f.amount

/-- The fee of the party of `side`, in the asset it receives. -/
def fee (f : Fill) : Side → Mpd
  | .ask => f.askFee
  | .bid => f.bidFee

end Fill

/-- A jansson value. -/
inductive Json
  | null
  | bool (value : Bool)
  | integer (value : ℤ)
  | real (value : ℚ)
  | string (value : String)
  | array (items : List Json)
  | object (fields : List (String × Json))

/-- `json_object_set`. -/
def jsonObjectSet (fields : List (String × Json)) (key : String) (value : Json) :
    List (String × Json) :=
  match fields with
  | [] => [(key, value)]
  | field :: rest =>
      if field.1 = key then (key, value) :: rest
      else field :: jsonObjectSet rest key value

/-- The `detail` column of a balance history row. -/
inductive Detail
  | trade (market : String) (orderId : ℕ) (price amount : Mpd)
  | fee (market : String) (orderId : ℕ) (price amount feeRate : Mpd)
  | update (fields : List (String × Json))

/-- `ORDER_EVENT_PUT`, `ORDER_EVENT_UPDATE` and `ORDER_EVENT_FINISH`. -/
inductive OrderEvent
  | put
  | update
  | finish
  deriving DecidableEq, Repr

/-- History rows and messages, in the order they are appended. -/
inductive Output
  /-- `append_order_deal_history`. -/
  | dealHistory (t : Time) (market : String) (fill : Fill)
  /-- `append_user_balance_history`; `balance` is the total at that moment. -/
  | balanceHistory (t : Time) (userId : ℕ) (asset business : String) (change balance : Mpd)
      (detail : Detail)
  /-- `append_order_history`. -/
  | orderHistory (order : Order)
  /-- `push_deal_message`. -/
  | dealMessage (t : Time) (market : String) (fill : Fill) (stock money : String)
  /-- `push_order_message`. -/
  | orderMessage (event : OrderEvent) (order : Order) (stock money : String)
  /-- `push_balance_message`. -/
  | balanceMessage (t : Time) (userId : ℕ) (asset business : String) (change : Mpd)

/-- A balance history row carries the true sum of both balances. -/
def Output.totalTrue (ledger : Ledger) : Output → Bool
  | .balanceHistory _ userId asset _ _ balance _ =>
      decide (balance.value = ledger.owns userId asset)
  | _ => true

/-! ## The engine -/

/-- What all markets share. `ignored`, `fills` and `totals` are ghosts: how often
a caller dropped a `NULL` returned by a balance function, every fill made, and
whether every total written to history was the true one. -/
structure World where
  ledger : Ledger
  heap : Ref → Option Order
  nextRef : Ref
  orderIdStart : ℕ
  dealsIdStart : ℕ
  out : List Output
  ignored : ℕ := 0
  fills : List Fill := []
  totals : Bool := true

namespace World

def observe (w : World) (result : Mpd) (expected : ℚ) : World :=
  { w with ledger := w.ledger.observe result expected }

/-- Append an output when running live; a replay writes nothing. -/
def emit (w : World) (real : Bool) (output : Output) : World :=
  if real then
    { w with out := w.out ++ [output], totals := w.totals && output.totalTrue w.ledger }
  else w

/-- Continue after a balance call whose result is not looked at. -/
def discard (w : World) (call : Option Mpd × Ledger) : World :=
  { w with
    ledger := call.2
    ignored := if call.1.isNone then w.ignored + 1 else w.ignored }

end World

/-- `struct update_key`: the bytes compared by `update_dict_key_compare`.
`padding` is the unset gap before `business_id`. -/
structure UpdateKey where
  userId : ℕ
  asset : String
  business : List UInt8
  padding : ℕ
  businessId : ℕ
  deriving DecidableEq

/-- `struct operlog`. -/
structure OperLog where
  id : ℕ
  createTime : Time
  method : String
  params : List Json

/-- The engine process. -/
structure Engine where
  world : World
  markets : Dict String Market
  /-- `dict_update`, with the creation time of each entry. -/
  updates : Dict UpdateKey Time
  operlogIdStart : ℕ
  /-- Every entry appended, flushed or not. -/
  operlog : List OperLog

/-- What a command is answered with. -/
inductive Reply
  | error (code : ℕ) (message : String)
  | success
  | order (info : Order)
  deriving DecidableEq, Repr

end ViabtcServer.MatchEngine
