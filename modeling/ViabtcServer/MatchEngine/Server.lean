import ViabtcServer.MatchEngine.Market

/-!
# Commands of the engine

The handlers of the four state-changing commands, from the JSON parameter list
to the reply, and the balance update they share with the log replay. A handler
reads the clock once; `none` is a handler that never returns.
-/

namespace ViabtcServer.MatchEngine

open Decimal Container

variable [Libmpdec]

/-! ## Arguments -/

/-- Why a parameter list is not used. -/
inductive ArgError
  | invalid
  | noMarket
  deriving DecidableEq, Repr

/-- A `json_int_t` stored in a `uint32_t`. -/
def toUint32 (value : ℤ) : ℕ :=
  (value % 2 ^ 32).toNat

/-- A `json_int_t` stored in a `uint64_t`. -/
def toUint64 (value : ℤ) : ℕ :=
  (value % 2 ^ 64).toNat

/-- A `uint64_t` handed to `json_integer`. -/
def ofUint64 (value : ℕ) : ℤ :=
  if value < 2 ^ 63 then value else value - 2 ^ 64

def jsonInteger : Json → Except ArgError ℤ
  | .integer value => .ok value
  | _ => .error .invalid

def jsonString : Json → Except ArgError String
  | .string value => .ok value
  | _ => .error .invalid

def jsonObject : Json → Except ArgError (List (String × Json))
  | .object fields => .ok fields
  | _ => .error .invalid

/-- `decimal` of `ut_decimal.c`: a precision of zero leaves the number as it is. -/
def decimal (str : String) (prec : ℤ) : Option Mpd :=
  (mpdSetString str).map fun result =>
    if prec ≠ 0 then mpdRescale result (-prec) else result

/-- A string argument read as a decimal. -/
def jsonDecimal (prec : ℤ) (json : Json) : Except ArgError Mpd :=
  match jsonString json with
  | .ok str =>
      match decimal str prec with
      | some value => .ok value
      | none => .error .invalid
  | .error e => .error e

/-- A decimal argument the comparison with zero lets pass as positive. -/
def jsonPositive (prec : ℤ) (json : Json) : Except ArgError Mpd :=
  match jsonDecimal prec json with
  | .ok value => if mpdCmp value mpdZero ≤ 0 then .error .invalid else .ok value
  | .error e => .error e

/-- A decimal argument the comparisons with zero and one let pass as a fee rate. -/
def jsonFee (prec : ℤ) (json : Json) : Except ArgError Mpd :=
  match jsonDecimal prec json with
  | .ok value =>
      if mpdCmp value mpdZero < 0 ∨ mpdCmp value mpdOne ≥ 0 then .error .invalid else .ok value
  | .error e => .error e

def jsonSide (json : Json) : Except ArgError Side :=
  match jsonInteger json with
  | .ok value =>
      if toUint32 value = Side.ask.code then .ok .ask
      else if toUint32 value = Side.bid.code then .ok .bid
      else .error .invalid
  | .error e => .error e

def jsonSource (tooLong : String → Bool) (json : Json) : Except ArgError String :=
  match jsonString json with
  | .ok source => if tooLong source then .error .invalid else .ok source
  | .error e => .error e

/-- `get_market` on a string argument. -/
def getMarket (markets : Dict String Market) (json : Json) : Except ArgError (String × Market) :=
  match jsonString json with
  | .ok name =>
      match dictFind markets name with
      | some m => .ok (name, m)
      | none => .error .noMarket
  | .error e => .error e

structure LimitArgs where
  userId : ℕ
  name : String
  market : Market
  side : Side
  amount : Mpd
  price : Mpd
  takerFee : Mpd
  makerFee : Mpd
  source : String

structure MarketArgs where
  userId : ℕ
  name : String
  market : Market
  side : Side
  amount : Mpd
  takerFee : Mpd
  source : String

structure CancelArgs where
  userId : ℕ
  name : String
  market : Market
  orderId : ℕ

structure UpdateArgs where
  userId : ℕ
  asset : String
  business : String
  businessId : ℕ
  change : Mpd
  detail : List (String × Json)

/-- The parameters of a limit order, checked in the order of the source. -/
def readLimitArgs (tooLong : String → Bool) (markets : Dict String Market) (params : List Json) :
    Except ArgError LimitArgs :=
  match params with
  | [user, market, side, amount, price, takerFee, makerFee, source] => do
      let user ← jsonInteger user
      let (name, m) ← getMarket markets market
      let side ← jsonSide side
      let amount ← jsonPositive m.stockPrec amount
      let price ← jsonPositive m.moneyPrec price
      let takerFee ← jsonFee m.feePrec takerFee
      let makerFee ← jsonFee m.feePrec makerFee
      let source ← jsonSource tooLong source
      pure ⟨toUint32 user, name, m, side, amount, price, takerFee, makerFee, source⟩
  | _ => .error .invalid

/-- The parameters of a market order. The amount of a bid is money and is read
with the stock precision all the same. -/
def readMarketArgs (tooLong : String → Bool) (markets : Dict String Market)
    (params : List Json) : Except ArgError MarketArgs :=
  match params with
  | [user, market, side, amount, takerFee, source] => do
      let user ← jsonInteger user
      let (name, m) ← getMarket markets market
      let side ← jsonSide side
      let amount ← jsonPositive m.stockPrec amount
      let takerFee ← jsonFee m.feePrec takerFee
      let source ← jsonSource tooLong source
      pure ⟨toUint32 user, name, m, side, amount, takerFee, source⟩
  | _ => .error .invalid

def readCancelArgs (markets : Dict String Market) (params : List Json) :
    Except ArgError CancelArgs :=
  match params with
  | [user, market, orderId] => do
      let user ← jsonInteger user
      let (name, m) ← getMarket markets market
      let orderId ← jsonInteger orderId
      pure ⟨toUint32 user, name, m, toUint64 orderId⟩
  | _ => .error .invalid

/-- The parameters of a balance update, the change read with precision `prec`. -/
def readUpdateArgs (prec : ℤ) (user asset business businessId change detail : Json) :
    Except ArgError UpdateArgs := do
  let user ← jsonInteger user
  let asset ← jsonString asset
  let business ← jsonString business
  let businessId ← jsonInteger businessId
  let change ← jsonDecimal prec change
  let detail ← jsonObject detail
  pure ⟨toUint32 user, asset, business, toUint64 businessId, change, detail⟩

/-! ## Balance updates -/

/-- The 32 bytes `strncpy` leaves in `key.business`. -/
def businessBytes (business : String) : List UInt8 :=
  (business.toUTF8.data.toList ++ List.replicate (businessNameMaxLen + 1) 0).take
    (businessNameMaxLen + 1)

/-- The key of an update. `padding` is what the stack holds in the gap. -/
def updateKey (padding userId : ℕ) (asset business : String) (businessId : ℕ) : UpdateKey where
  userId := userId
  asset := asset
  business := businessBytes business
  padding := padding
  businessId := businessId

variable [Settings]

/-- `update_user_balance`: `-1` for a repeat, `-2` for a refused balance call. -/
def updateUserBalance (real : Bool) (now : Time) (padding : ℕ) (e : Engine) (args : UpdateArgs) :
    ℤ × Engine :=
  let key := updateKey padding args.userId args.asset args.business args.businessId
  match dictFind e.updates key with
  | some _ => (-1, e)
  | none =>
      let absChange := mpdAbs args.change
      let account : BalanceKey := ⟨args.userId, .available, args.asset⟩
      let call :=
        if mpdCmp args.change mpdZero ≥ 0 then balanceAdd e.world.ledger account absChange
        else balanceSub e.world.ledger account absChange
      match call with
      | (none, _) => (-2, e)
      | (some _, ledger) =>
          let w := { e.world with ledger := ledger }
          let detail := jsonObjectSet args.detail "id" (.integer (ofUint64 args.businessId))
          let w := w.emit real (.balanceHistory now args.userId args.asset args.business
            args.change (balanceTotal ledger args.userId args.asset) (.update detail))
          let w := w.emit real
            (.balanceMessage now args.userId args.asset args.business args.change)
          (0, { e with world := w, updates := dictReplace e.updates key now })

/-- `on_timer` of `me_update.c`: entries older than a day are forgotten. -/
def updateOnTimer (now : Time) (e : Engine) : Engine :=
  let expired := e.updates.entries.filter fun entry => entry.2 + 86400 * 1000000 < now
  { e with updates := expired.foldl (fun dict entry => dictDelete dict entry.1) e.updates }

/-! ## Handlers -/

def invalidArgument : Reply := .error 1 "invalid argument"

/-- `append_operlog`. -/
def appendOperlog (now : Time) (e : Engine) (method : String) (params : List Json) : Engine :=
  { e with
    operlogIdStart := e.operlogIdStart + 1
    operlog := e.operlog ++ [⟨e.operlogIdStart + 1, now, method, params⟩] }

/-- The engine after an operation on the market of that name. -/
def Engine.install (e : Engine) (name : String) (outcome : Outcome) : Engine :=
  { e with world := outcome.world, markets := dictReplace e.markets name outcome.market }

/-- The asset of a balance update is looked up before the rest is read, and the
precision shown to clients is the one the change is read with. The detail
object is the one in `params`: the update leaves its id in it. -/
def onCmdBalanceUpdate (now : Time) (padding : ℕ) (e : Engine) (params : List Json) :
    Reply × Engine :=
  match params with
  | [user, .string asset, business, businessId, change, detail] =>
      let prec := assetPrecShow asset
      if prec < 0 then (invalidArgument, e)
      else
        match readUpdateArgs prec user (.string asset) business businessId change detail with
        | .error _ => (invalidArgument, e)
        | .ok args =>
            match updateUserBalance true now padding e args with
            | (-1, e) => (.error 10 "repeat update", e)
            | (-2, e) => (.error 11 "balance not enough", e)
            | (_, e) =>
                let logged := jsonObjectSet args.detail "id" (.integer (ofUint64 args.businessId))
                (.success, appendOperlog now e "update_balance"
                  [user, .string asset, business, businessId, change, .object logged])
  | _ => (invalidArgument, e)

/-- The source of a live order has fewer than `SOURCE_MAX_LEN` bytes. -/
def liveTooLong (source : String) : Bool :=
  source.utf8ByteSize ≥ sourceMaxLen

def onCmdOrderPutLimit (now : Time) (fuel : ℕ) (e : Engine) (params : List Json) :
    Option (Reply × Engine) :=
  match readLimitArgs liveTooLong e.markets params with
  | .error _ => some (invalidArgument, e)
  | .ok a =>
      (marketPutLimitOrder true now fuel a.market e.world a.userId a.side a.amount a.price
        a.takerFee a.makerFee a.source).map fun outcome =>
        match outcome.ret, outcome.info with
        | -1, _ => (.error 10 "balance not enough", e)
        | -2, _ => (.error 11 "amount too small", e)
        | 0, some info =>
            (.order info, appendOperlog now (e.install a.name outcome) "limit_order" params)
        | _, _ => (.error 2 "internal error", e.install a.name outcome)

def onCmdOrderPutMarket (now : Time) (fuel : ℕ) (e : Engine) (params : List Json) :
    Option (Reply × Engine) :=
  match readMarketArgs liveTooLong e.markets params with
  | .error _ => some (invalidArgument, e)
  | .ok a =>
      (marketPutMarketOrder true now fuel a.market e.world a.userId a.side a.amount a.takerFee
        a.source).map fun outcome =>
        match outcome.ret, outcome.info with
        | -1, _ => (.error 10 "balance not enough", e)
        | -2, _ => (.error 11 "amount too small", e)
        | -3, _ => (.error 12 "no enough trader", e)
        | 0, some info =>
            (.order info, appendOperlog now (e.install a.name outcome) "market_order" params)
        | _, _ => (.error 2 "internal error", e.install a.name outcome)

def onCmdOrderCancel (now : Time) (e : Engine) (params : List Json) : Reply × Engine :=
  match readCancelArgs e.markets params with
  | .error _ => (invalidArgument, e)
  | .ok a =>
      match marketGetOrder a.market e.world a.orderId with
      | none => (.error 10 "order not found", e)
      | some (ref, order) =>
          if order.userId ≠ a.userId then (.error 11 "user not match", e)
          else
            let outcome := marketCancelOrder true a.market e.world ref order
            match outcome.info with
            | some info =>
                (.order info, appendOperlog now (e.install a.name outcome) "cancel_order" params)
            | none => (.error 2 "internal error", e.install a.name outcome)

/-- A command received by the engine. `padding` is the stack content the update
key picks up. -/
inductive Command
  | balanceUpdate (padding : ℕ) (params : List Json)
  | orderPutLimit (params : List Json)
  | orderPutMarket (params : List Json)
  | orderCancel (params : List Json)

/-- Handle one command. -/
def Engine.handle (now : Time) (fuel : ℕ) (e : Engine) : Command → Option (Reply × Engine)
  | .balanceUpdate padding params => some (onCmdBalanceUpdate now padding e params)
  | .orderPutLimit params => onCmdOrderPutLimit now fuel e params
  | .orderPutMarket params => onCmdOrderPutMarket now fuel e params
  | .orderCancel params => some (onCmdOrderCancel now e params)

/-! ## Start -/

/-- `init_trade`: every configured market is created; a second market of one
name is not added. -/
def initTrade : Option (Dict String Market) :=
  Settings.markets.foldlM (fun dict conf =>
    (marketCreate conf).map fun m => (dictAdd dict conf.name m).getD dict) ∅

/-- A world without orders and balances. -/
def World.empty : World where
  ledger := { balances := ∅ }
  heap := fun _ => none
  nextRef := 0
  orderIdStart := 0
  dealsIdStart := 0
  out := []

/-- The engine before `init_from_db`: `init_balance`, `init_update` and
`init_trade` have run. -/
def Engine.start : Option Engine :=
  if (initBalance Settings.assets).isNone then none
  else
    initTrade.map fun markets =>
      { world := .empty, markets := markets, updates := ∅, operlogIdStart := 0, operlog := [] }

end ViabtcServer.MatchEngine
