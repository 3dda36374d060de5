import ViabtcServer.MatchEngine.Balance

/-!
# Markets

Placing, matching and removing orders. The four `execute_*_order` functions are
one loop with four rules: they differ in the taker's side, in the price test
that ends the loop, in how the amount of a fill is chosen and in whether the
rest of the taker is counted in stock or in money.

Every function takes the time it reads and, where the source loops, a bound on
its iterations; `none` is a run that does not return within the bound.
-/

namespace ViabtcServer.MatchEngine

open Decimal Container

variable [Libmpdec]

/-! ## Comparisons -/

/-- The price part of `order_match_compare`, by the side of the first order. -/
def priceCompare (order1 order2 : Order) : ℤ :=
  match order1.side with
  | .ask => mpdCmp order1.price order2.price
  | .bid => mpdCmp order2.price order1.price

/-- `order_match_compare`. -/
def orderMatchCompare (order1 order2 : Order) : ℤ :=
  if order1.id = order2.id then 0
  else if order1.type ≠ order2.type then 1
  else
    let cmp := priceCompare order1 order2
    if cmp ≠ 0 then cmp
    else if order1.id > order2.id then 1 else -1

/-- `order_id_compare`. -/
def orderIdCompare (order1 order2 : Order) : ℤ :=
  if order1.id = order2.id then 0
  else if order1.id > order2.id then -1 else 1

/-- A comparison of the orders two references point to. Reading through a
dangling reference is undefined; no order is less than a freed one here. -/
def compareAt (heap : Ref → Option Order) (compare : Order → Order → ℤ) (ref1 ref2 : Ref) : ℤ :=
  match heap ref1, heap ref2 with
  | some order1, some order2 => compare order1 order2
  | _, _ => 0

/-- Write an order through its reference. -/
def World.store (w : World) (ref : Ref) (order : Order) : World :=
  { w with heap := Function.update w.heap ref (some order) }

/-- `order_free`. -/
def orderFree (w : World) (ref : Ref) : World :=
  { w with heap := Function.update w.heap ref none }

variable [Settings]

/-! ## Creation -/

/-- `market_create`. -/
def marketCreate (conf : MarketConf) : Option Market :=
  if !assetExist conf.stock || !assetExist conf.money then none
  else if conf.stockPrec + conf.moneyPrec > assetPrec conf.money then none
  else if conf.stockPrec + conf.feePrec > assetPrec conf.stock then none
  else if conf.moneyPrec + conf.feePrec > assetPrec conf.money then none
  else some { conf with orders := ∅, users := ∅, asks := [], bids := [] }

/-! ## Resting orders -/

/-- The list of `order`'s user with the order in it. -/
def putUser (m : Market) (w : World) (order : Order) (ref : Ref) : Option Market :=
  let compare := compareAt w.heap orderIdCompare
  match dictFind m.users order.userId with
  | some list =>
      (skiplistInsert compare list ref).map fun list =>
        { m with users := dictReplace m.users order.userId list }
  | none =>
      (skiplistInsert compare [] ref).bind fun list =>
        (dictAdd m.users order.userId list).map fun users => { m with users := users }

/-- What a resting order freezes. -/
def freezeAmount (order : Order) : Mpd :=
  match order.side with
  | .ask => order.left
  | .bid => mpdMul order.price order.left

/-- The product a bid computes for its frozen amount, as observed. -/
def World.observeFreeze (w : World) (order : Order) : World :=
  match order.side with
  | .ask => w
  | .bid => w.observe (mpdMul order.price order.left) (order.price.value * order.left.value)

/-- `order_put`; the flag is false where the source returns a negative code.
The order object gets its address here. -/
def orderPut (m : Market) (w : World) (order : Order) : Bool × Market × World :=
  let ref := w.nextRef
  let w := { w.store ref order with nextRef := ref + 1 }
  if order.type ≠ .limit then (false, m, w)
  else
    match dictAdd m.orders order.id ref with
    | none => (false, m, w)
    | some orders =>
        let m := { m with orders := orders }
        match putUser m w order ref with
        | none => (false, m, w)
        | some m =>
            match skiplistInsert (compareAt w.heap orderMatchCompare) (m.book order.side) ref with
            | none => (false, m, w)
            | some book =>
                let m := m.setBook order.side book
                let freeze := freezeAmount order
                let w := (w.observeFreeze order).store ref { order with freeze := freeze }
                let call := balanceFreeze w.ledger order.userId (m.gives order.side) freeze
                (call.1.isSome, m, w.discard call)

/-- The order's side of the book without it. -/
def unlinkBook (m : Market) (w : World) (order : Order) (ref : Ref) : Market :=
  let compare := compareAt w.heap orderMatchCompare
  match skiplistFind compare (m.book order.side) ref with
  | some node => m.setBook order.side (skiplistDelete compare (m.book order.side) node)
  | none => m

/-- The user's list without the order. -/
def unlinkUser (m : Market) (w : World) (order : Order) (ref : Ref) : Market :=
  let compare := compareAt w.heap orderIdCompare
  match dictFind m.users order.userId with
  | some list =>
      match skiplistFind compare list ref with
      | some node =>
          { m with users := dictReplace m.users order.userId (skiplistDelete compare list node) }
      | none => m
  | none => m

/-- The part of `order_finish` after the balance is released. -/
def orderRemove (real : Bool) (m : Market) (w : World) (order : Order) (ref : Ref) :
    Market × World :=
  let m := { m with orders := dictDelete m.orders order.id }
  let m := unlinkUser m w order ref
  let w := w.emit (real && decide (mpdCmp order.dealStock mpdZero > 0)) (.orderHistory order)
  (m, orderFree w ref)

/-- `order_finish`; a balance that cannot be released ends it early. -/
def orderFinish (real : Bool) (m : Market) (w : World) (ref : Ref) : Bool × Market × World :=
  match w.heap ref with
  | none => (false, m, w)
  | some order =>
      let m := unlinkBook m w order ref
      if mpdCmp order.freeze mpdZero > 0 then
        let call := balanceUnfreeze w.ledger order.userId (m.gives order.side) order.freeze
        let w := w.discard call
        if call.1.isNone then (false, m, w)
        else (true, orderRemove real m w order ref)
      else (true, orderRemove real m w order ref)

/-! ## Balance history -/

/-- `append_user_balance_history` for a trade of `order`. -/
def appendBalanceTrade (real : Bool) (w : World) (order : Order) (asset : String) (change : Mpd)
    (detail : Detail) : World :=
  w.emit real (.balanceHistory order.updateTime order.userId asset "trade" change
    (balanceTotal w.ledger order.userId asset) detail)

def appendBalanceTradeAdd (real : Bool) (w : World) (order : Order) (asset : String)
    (change price amount : Mpd) : World :=
  appendBalanceTrade real w order asset change (.trade order.market order.id price amount)

def appendBalanceTradeSub (real : Bool) (w : World) (order : Order) (asset : String)
    (change price amount : Mpd) : World :=
  appendBalanceTrade real w order asset change.negate (.trade order.market order.id price amount)

def appendBalanceTradeFee (real : Bool) (w : World) (order : Order) (asset : String)
    (change price amount feeRate : Mpd) : World :=
  appendBalanceTrade real w order asset change.negate
    (.fee order.market order.id price amount feeRate)

/-! ## One fill -/

/-- What one of the four matching loops works on. -/
structure LoopState where
  market : Market
  world : World
  taker : Order

/-- What tells the four matching loops apart. -/
structure MatchRule where
  /-- The taker's side. -/
  side : Side
  /-- The price test on taker and maker that ends the loop. -/
  stops : Order → Order → Bool
  /-- The amount of the next fill. The outer `none` is an endless search, the
  inner one ends the loop. -/
  volume : ℕ → LoopState → Order → Option (World × Option Mpd)
  /-- What a fill takes from the taker's `left`. -/
  spends : Fill → Mpd

/-- The fee rates of the ask and of the bid. -/
def feeRates (side : Side) (taker maker : Order) : Mpd × Mpd :=
  match side with
  | .ask => (taker.takerFee, maker.makerFee)
  | .bid => (maker.makerFee, taker.takerFee)

/-- Price, amount, money and fees of a fill. -/
def makeFill (side : Side) (taker maker : Order) (amount : Mpd) (dealId : ℕ) : Fill :=
  let (ask, bid) := match side with
    | .ask => (taker, maker)
    | .bid => (maker, taker)
  let deal := mpdMul maker.price amount
  { dealId := dealId
    takerSide := side
    askId := ask.id
    askUser := ask.userId
    bidId := bid.id
    bidUser := bid.userId
    price := maker.price
    amount := amount
    deal := deal
    askFee := mpdMul deal (feeRates side taker maker).1
    bidFee := mpdMul amount (feeRates side taker maker).2 }

/-- The three products of a fill, as observed. -/
def World.observeFill (w : World) (f : Fill) (rates : Mpd × Mpd) : World :=
  ((w.observe f.deal (f.price.value * f.amount.value)).observe
    f.askFee (f.deal.value * rates.1.value)).observe
    f.bidFee (f.amount.value * rates.2.value)

/-- An order after a fill that takes `spent` from what is left of it. -/
def Order.record (order : Order) (now : Time) (side : Side) (f : Fill) (spent : Mpd) : Order :=
  { order with
    updateTime := now
    left := mpdSub order.left spent
    dealStock := mpdAdd order.dealStock f.amount
    dealMoney := mpdAdd order.dealMoney f.deal
    dealFee := mpdAdd order.dealFee (f.fee side) }

/-- The sums of `Order.record`, as observed. -/
def World.observeRecord (w : World) (order : Order) (side : Side) (f : Fill) (spent : Mpd) :
    World :=
  (((w.observe (mpdSub order.left spent) (order.left.value - spent.value)).observe
    (mpdAdd order.dealStock f.amount) (order.dealStock.value + f.amount.value)).observe
    (mpdAdd order.dealMoney f.deal) (order.dealMoney.value + f.deal.value)).observe
    (mpdAdd order.dealFee (f.fee side)) (order.dealFee.value + (f.fee side).value)

/-- A party pays from the balance `source`. -/
def settlePays (real : Bool) (conf : MarketConf) (w : World) (order : Order) (side : Side)
    (source : BalanceType) (f : Fill) : World :=
  let w := w.discard
    (balanceSub w.ledger ⟨order.userId, source, conf.gives side⟩ (f.pays side))
  appendBalanceTradeSub real w order (conf.gives side) (f.pays side) f.price f.amount

/-- A party receives into its available balance. -/
def settleReceives (real : Bool) (conf : MarketConf) (w : World) (order : Order) (side : Side)
    (f : Fill) : World :=
  let w := w.discard
    (balanceAdd w.ledger ⟨order.userId, .available, conf.gets side⟩ (f.receives side))
  appendBalanceTradeAdd real w order (conf.gets side) (f.receives side) f.price f.amount

/-- A party pays its fee from what it received. -/
def settleFee (real : Bool) (conf : MarketConf) (w : World) (order : Order) (side : Side)
    (f : Fill) (feeRate : Mpd) : World :=
  if mpdCmp (f.fee side) mpdZero > 0 then
    let w := w.discard
      (balanceSub w.ledger ⟨order.userId, .available, conf.gets side⟩ (f.fee side))
    appendBalanceTradeFee real w order (conf.gets side) (f.fee side) f.price f.amount feeRate
  else w

/-- The balance movements of one party. -/
def settle (real : Bool) (conf : MarketConf) (w : World) (order : Order) (side : Side)
    (source : BalanceType) (f : Fill) (feeRate : Mpd) : World :=
  let w := settlePays real conf w order side source f
  let w := settleReceives real conf w order side f
  settleFee real conf w order side f feeRate

/-- The maker after a fill: what it pays leaves its frozen amount as well. -/
def makerAfter (maker : Order) (now : Time) (side : Side) (f : Fill) : Order :=
  { maker.record now side f f.amount with freeze := mpdSub maker.freeze (f.pays side) }

/-- The deal id is taken, the deal written to history and published. -/
def World.openDeal (w : World) (real : Bool) (now : Time) (conf : MarketConf) (market : String)
    (f : Fill) : World :=
  let w := { w with dealsIdStart := f.dealId, fills := w.fills ++ [f] }
  let w := w.emit real (.dealHistory now market f)
  w.emit real (.dealMessage now conf.name f conf.stock conf.money)

/-- The taker's part of a fill. -/
def fillTaker (real : Bool) (now : Time) (rule : MatchRule) (conf : MarketConf) (w : World)
    (taker : Order) (f : Fill) : Order × World :=
  let spent := rule.spends f
  let w := w.observeRecord taker rule.side f spent
  let taker := taker.record now rule.side f spent
  (taker, settle real conf w taker rule.side .available f taker.takerFee)

/-- The maker's part of a fill, up to its message and removal. -/
def fillMaker (real : Bool) (now : Time) (side : Side) (conf : MarketConf) (w : World)
    (node : Ref) (maker : Order) (f : Fill) : World :=
  let w := w.observeRecord maker side f f.amount
  let w := w.observe (mpdSub maker.freeze (f.pays side))
    (maker.freeze.value - (f.pays side).value)
  let maker := makerAfter maker now side f
  settle real conf (w.store node maker) maker side .freeze f maker.makerFee

/-- A maker left with nothing is removed, any other is announced as updated. -/
def closeMaker (real : Bool) (m : Market) (w : World) (node : Ref) (maker : Order) :
    Market × World :=
  if mpdCmp maker.left mpdZero = 0 then
    let w := w.emit real (.orderMessage .finish maker m.stock m.money)
    (orderFinish real m w node).2
  else (m, w.emit real (.orderMessage .update maker m.stock m.money))

/-- The body of the four loops once the amount is chosen. -/
def matchFill (real : Bool) (now : Time) (rule : MatchRule) (st : LoopState) (node : Ref)
    (maker : Order) (amount : Mpd) : LoopState :=
  let conf := st.market.toMarketConf
  let rates := feeRates rule.side st.taker maker
  let f := makeFill rule.side st.taker maker amount (st.world.dealsIdStart + 1)
  let market := match rule.side with
    | .ask => st.taker.market
    | .bid => maker.market
  let w := (st.world.observeFill f rates).openDeal real now conf market f
  let (taker, w) := fillTaker real now rule conf w st.taker f
  let w := fillMaker real now rule.side.opposite conf w node maker f
  let (m, w) := closeMaker real st.market w node (makerAfter maker now rule.side.opposite f)
  { market := m, world := w, taker := taker }

/-! ## The loops -/

/-- The loop of `execute_*_order` from an iterator position on. `skiplist_next`
moves the iterator to the next node before the body sees the current one. -/
def matchLoop (real : Bool) (now : Time) (rule : MatchRule) :
    ℕ → Option Ref → LoopState → Option LoopState
  | 0, _, _ => none
  | _ + 1, none, st => some st
  | fuel + 1, some node, st =>
      let next := skiplistForward (st.market.book rule.side.opposite) node
      if mpdCmp st.taker.left mpdZero = 0 then some st
      else
        match st.world.heap node with
        | none => none
        | some maker =>
            if rule.stops st.taker maker then some st
            else
              match rule.volume fuel st maker with
              | none => none
              | some (w, none) => some { st with world := w }
              | some (w, some amount) =>
                  matchLoop real now rule fuel next
                    (matchFill real now rule { st with world := w } node maker amount)

/-- Run a loop over the whole opposite side. -/
def execute (real : Bool) (now : Time) (fuel : ℕ) (rule : MatchRule) (st : LoopState) :
    Option LoopState :=
  matchLoop real now rule fuel (skiplistGetIterator (st.market.book rule.side.opposite)) st

/-- The smaller of the two rests. -/
def minLeft (taker maker : Order) : Mpd :=
  if mpdCmp taker.left maker.left < 0 then taker.left else maker.left

/-- The amount of a fill that the rests alone decide. -/
def restVolume (_ : ℕ) (st : LoopState) (maker : Order) : Option (World × Option Mpd) :=
  some (st.world, some (minLeft st.taker maker))

/-- Asks stop at a bid below their price. -/
def limitAskRule : MatchRule where
  side := .ask
  stops taker maker := mpdCmp taker.price maker.price > 0
  volume := restVolume
  spends f := f.amount

/-- Bids stop at an ask above their price. -/
def limitBidRule : MatchRule where
  side := .bid
  stops taker maker := mpdCmp taker.price maker.price < 0
  volume := restVolume
  spends f := f.amount

def marketAskRule : MatchRule where
  side := .ask
  stops _ _ := false
  volume := restVolume
  spends f := f.amount

/-- The inner loop of `execute_market_bid_order`: one unit of the stock
precision is taken off until the money suffices. -/
def lowerAmount (stockPrec : ℤ) (left price : Mpd) : ℕ → World → Mpd → Option (World × Mpd)
  | 0, _, _ => none
  | fuel + 1, w, amount =>
      let result := mpdMul amount price
      let w := w.observe result (amount.value * price.value)
      if mpdCmp result left > 0 then
        let unit := mpdPow mpdTen (Mpd.ofInt (-stockPrec))
        let lower := mpdSub amount unit
        lowerAmount stockPrec left price fuel
          (w.observe lower (amount.value - unit.value)) lower
      else some (w, amount)

/-- The amount of a fill of a market bid: what the remaining money pays, at most
what the maker has; nothing at all ends the loop. -/
def moneyVolume (fuel : ℕ) (st : LoopState) (maker : Order) : Option (World × Option Mpd) :=
  let prec := st.market.stockPrec
  let quotient := mpdRescale (mpdDiv st.taker.left maker.price) (-prec)
  match lowerAmount prec st.taker.left maker.price fuel st.world quotient with
  | none => none
  | some (w, amount) =>
      let amount := if mpdCmp amount maker.left > 0 then maker.left else amount
      if mpdCmp amount mpdZero = 0 then some (w, none) else some (w, some amount)

def marketBidRule : MatchRule where
  side := .bid
  stops _ _ := false
  volume := moneyVolume
  spends f := f.deal

def executeLimitAskOrder (real : Bool) (now : Time) (fuel : ℕ) (st : LoopState) :
    Option LoopState :=
  execute real now fuel limitAskRule st

def executeLimitBidOrder (real : Bool) (now : Time) (fuel : ℕ) (st : LoopState) :
    Option LoopState :=
  execute real now fuel limitBidRule st

def executeMarketAskOrder (real : Bool) (now : Time) (fuel : ℕ) (st : LoopState) :
    Option LoopState :=
  execute real now fuel marketAskRule st

def executeMarketBidOrder (real : Bool) (now : Time) (fuel : ℕ) (st : LoopState) :
    Option LoopState :=
  execute real now fuel marketBidRule st

/-! ## Commands on a market -/

/-- What a command on a market returns: the code, the order info of a live
command, and the market and world after it. -/
structure Outcome where
  ret : ℤ
  info : Option Order
  market : Market
  world : World

/-- A command refused with `code` changes nothing. -/
def Outcome.refuse (code : ℤ) (m : Market) (w : World) : Outcome :=
  ⟨code, none, m, w⟩

/-- The amount a limit order needs: stock for an ask, money for a bid. -/
def limitRequire (side : Side) (amount price : Mpd) : Mpd :=
  match side with
  | .ask => amount
  | .bid => mpdMul amount price

def World.observeRequire (w : World) (side : Side) (amount price : Mpd) : World :=
  match side with
  | .ask => w
  | .bid => w.observe (mpdMul amount price) (amount.value * price.value)

/-- The test `!balance || mpd_cmp(balance, require) < 0`. -/
def lacks (ledger : Ledger) (key : BalanceKey) (require : Mpd) : Bool :=
  match balanceGet ledger key with
  | none => true
  | some balance => mpdCmp balance require < 0

/-- A new order of the next id. -/
def newOrder (now : Time) (m : Market) (w : World) (type : OrderType) (userId : ℕ) (side : Side)
    (amount price takerFee makerFee : Mpd) (source : String) : Order where
  id := w.orderIdStart + 1
  type := type
  side := side
  createTime := now
  updateTime := now
  userId := userId
  market := m.name
  source := some source
  price := price
  amount := amount
  takerFee := takerFee
  makerFee := makerFee
  left := amount
  freeze := mpdZero
  dealStock := mpdZero
  dealMoney := mpdZero
  dealFee := mpdZero

/-- A live command returns the order's info, a replayed one nothing. -/
def replyInfo (real : Bool) (order : Order) : Option Order :=
  if real then some order else none

/-- What happens to a limit order after the loop. -/
def restOrFinish (real : Bool) (st : LoopState) : Outcome :=
  let order := st.taker
  let m := st.market
  if mpdCmp order.left mpdZero = 0 then
    let w := st.world.emit real (.orderHistory order)
    let w := w.emit real (.orderMessage .finish order m.stock m.money)
    ⟨0, replyInfo real order, m, w⟩
  else
    let w := st.world.emit real (.orderMessage .put order m.stock m.money)
    let (_, m, w) := orderPut m w order
    ⟨0, replyInfo real order, m, w⟩

def marketPutLimitOrder (real : Bool) (now : Time) (fuel : ℕ) (m : Market) (w : World)
    (userId : ℕ) (side : Side) (amount price takerFee makerFee : Mpd) (source : String) :
    Option Outcome :=
  let require := limitRequire side amount price
  if lacks w.ledger ⟨userId, .available, m.gives side⟩ require then some (.refuse (-1) m w)
  else if mpdCmp amount m.minAmount < 0 then some (.refuse (-2) m w)
  else
    let w := w.observeRequire side amount price
    let order := newOrder now m w .limit userId side amount price takerFee makerFee source
    let st : LoopState := ⟨m, { w with orderIdStart := order.id }, order⟩
    let executed :=
      match side with
      | .ask => executeLimitAskOrder real now fuel st
      | .bid => executeLimitBidOrder real now fuel st
    executed.map (restOrFinish real)

/-- What happens to a market order after the loop: it never rests. -/
def finishMarket (real : Bool) (st : LoopState) : Outcome :=
  let order := st.taker
  let w := st.world.emit real (.orderHistory order)
  let w := w.emit real (.orderMessage .finish order st.market.stock st.market.money)
  ⟨0, replyInfo real order, st.market, w⟩

/-- The least amount of a market order, given the best opposite order, with the
product a bid computes for it. -/
def marketRequire (w : World) (m : Market) (side : Side) (best : Order) : Mpd × World :=
  match side with
  | .ask => (m.minAmount, w)
  | .bid =>
      let require := mpdMul best.price m.minAmount
      (require, w.observe require (best.price.value * m.minAmount.value))

def marketPutMarketOrder (real : Bool) (now : Time) (fuel : ℕ) (m : Market) (w : World)
    (userId : ℕ) (side : Side) (amount takerFee : Mpd) (source : String) : Option Outcome :=
  if lacks w.ledger ⟨userId, .available, m.gives side⟩ amount then some (.refuse (-1) m w)
  else
    match skiplistGetIterator (m.book side.opposite) with
    | none => some (.refuse (-3) m w)
    | some node =>
        match w.heap node with
        | none => none
        | some best =>
            let (require, observed) := marketRequire w m side best
            if mpdCmp amount require < 0 then some (.refuse (-2) m w)
            else
              let order :=
                newOrder now m observed .market userId side amount mpdZero takerFee mpdZero source
              let st : LoopState := ⟨m, { observed with orderIdStart := order.id }, order⟩
              let executed :=
                match side with
                | .ask => executeMarketAskOrder real now fuel st
                | .bid => executeMarketBidOrder real now fuel st
              executed.map (finishMarket real)

/-- `market_cancel_order`. -/
def marketCancelOrder (real : Bool) (m : Market) (w : World) (ref : Ref) (order : Order) :
    Outcome :=
  let w := w.emit real (.orderMessage .finish order m.stock m.money)
  let (_, m, w) := orderFinish real m w ref
  ⟨0, replyInfo real order, m, w⟩

/-- `market_put_order`. -/
def marketPutOrder (m : Market) (w : World) (order : Order) : Bool × Market × World :=
  orderPut m w order

/-- `market_get_order`: the reference and the order it points to. -/
def marketGetOrder (m : Market) (w : World) (orderId : ℕ) : Option (Ref × Order) :=
  (dictFind m.orders orderId).bind fun ref => (w.heap ref).map fun order => (ref, order)

/-- `market_get_order_list`. -/
def marketGetOrderList (m : Market) (userId : ℕ) : Option (List Ref) :=
  dictFind m.users userId

end ViabtcServer.MatchEngine
