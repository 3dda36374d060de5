import ViabtcServer.Decimal.Column
import ViabtcServer.MatchEngine.Server
import ViabtcServer.Sql.Client
import Mathlib.Data.List.MinMax

/-!
# The slice tables

A slice taken at `time` is a table of orders, a table of balances and a row in
`slice_history`. The columns follow `create_trade_log.sql`. Every statement has
its effect or none; a statement is an error when a table it needs is missing, a
key is already there or a value does not fit its column.
-/

namespace ViabtcServer.MatchEngine

open Decimal Container Sql

/-! ## Rows -/

/-- The digits after the point of `price`, `amount`, `left`, `freeze` and
`deal_stock` in `slice_order_example`. -/
def orderScale : ℕ := 8

/-- The digits of `taker_fee` and `maker_fee`. -/
def feeScale : ℕ := 4

/-- The digits of `deal_money`. -/
def dealMoneyScale : ℕ := 16

/-- The digits of `deal_fee`. -/
def dealFeeScale : ℕ := 12

/-- The digits of `balance` in `slice_balance_example`. -/
def balanceScale : ℕ := 16

/-- `VARCHAR(30)`. -/
def nameColumn : ℕ := 30

/-- A row of `slice_order_example`. -/
structure OrderRow where
  id : ℕ
  type : OrderType
  side : Side
  createTime : Time
  updateTime : Time
  userId : ℕ
  market : String
  price : ℤ
  amount : ℤ
  takerFee : ℤ
  makerFee : ℤ
  left : ℤ
  freeze : ℤ
  dealStock : ℤ
  dealMoney : ℤ
  dealFee : ℤ
  deriving DecidableEq, Repr

/-- A row of `slice_balance_example`; the id is an `AUTO_INCREMENT` column. -/
structure BalanceRow where
  id : ℕ
  userId : ℕ
  asset : String
  type : BalanceType
  balance : ℤ
  deriving DecidableEq, Repr

/-- A row of `slice_history`. -/
structure SliceRow where
  id : ℕ
  time : ℕ
  endOperId : ℕ
  endOrderId : ℕ
  endDealsId : ℕ
  deriving DecidableEq, Repr

/-- The row of an order. The source of the order has no column. -/
def orderRow (o : Order) : Option OrderRow :=
  if o.id < 2 ^ 64 ∧ o.userId < 2 ^ 32 ∧ o.market.length ≤ nameColumn then do
    let price ← storeDecimal orderScale o.price
    let amount ← storeDecimal orderScale o.amount
    let takerFee ← storeDecimal feeScale o.takerFee
    let makerFee ← storeDecimal feeScale o.makerFee
    let left ← storeDecimal orderScale o.left
    let freeze ← storeDecimal orderScale o.freeze
    let dealStock ← storeDecimal orderScale o.dealStock
    let dealMoney ← storeDecimal dealMoneyScale o.dealMoney
    let dealFee ← storeDecimal dealFeeScale o.dealFee
    pure ⟨o.id, o.type, o.side, o.createTime, o.updateTime, o.userId, o.market, price, amount,
      takerFee, makerFee, left, freeze, dealStock, dealMoney, dealFee⟩
  else none

/-- An entry of `dict_balance`, as the dump walks over it. -/
abbrev BalanceEntry : Type := BalanceKey × Mpd

/-- The row of a balance under the next id. -/
def balanceRow (id : ℕ) (entry : BalanceEntry) : Option BalanceRow :=
  if entry.1.userId < 2 ^ 32 ∧ entry.1.asset.length ≤ nameColumn then
    (storeDecimal balanceScale entry.2).map fun balance =>
      ⟨id, entry.1.userId, entry.1.asset, entry.1.type, balance⟩
  else none

/-- The rows of a list of entries, numbered from `id` on. -/
def balanceRows : ℕ → List BalanceEntry → Option (List BalanceRow)
  | _, [] => some []
  | id, entry :: rest => do
      let row ← balanceRow id entry
      let rows ← balanceRows (id + 1) rest
      pure (row :: rows)

/-! ## The database -/

/-- The slice tables of the log database. `recorded` is a ghost: every row that
was ever written to `slice_history`. -/
structure SliceDb where
  orders : ℕ → Option (List OrderRow)
  balances : ℕ → Option (List BalanceRow)
  history : List SliceRow
  nextId : ℕ
  recorded : List SliceRow := []

/-- No slice has been taken. -/
def SliceDb.empty : SliceDb where
  orders _ := none
  balances _ := none
  history := []
  nextId := 1

/-- The statements `me_dump.c` and `me_persist.c` send about slices. -/
inductive SliceQuery
  | connect
  | dropOrders (time : ℕ) (ifExists : Bool)
  | createOrders (time : ℕ)
  | insertOrders (time : ℕ) (orders : List Order)
  | dropBalances (time : ℕ) (ifExists : Bool)
  | createBalances (time : ℕ)
  | insertBalances (time : ℕ) (entries : List BalanceEntry)
  | insertHistory (time endOperId endOrderId endDealsId : ℕ)
  /-- `SELECT COUNT(*) … WHERE time >= since`. -/
  | countSince (since : ℤ)
  /-- `SELECT id, time … WHERE time < before`. -/
  | selectBefore (before : ℤ)
  | deleteHistory (id : ℕ)

/-- An `INSERT` into one of the slice tables. -/
def SliceQuery.isTableInsert : SliceQuery → Bool
  | insertOrders .. => true
  | insertBalances .. => true
  | _ => false

/-- Any `INSERT`. -/
def SliceQuery.isInsert : SliceQuery → Bool
  | insertHistory .. => true
  | statement => statement.isTableInsert

inductive SliceAnswer
  | ok
  | count (rows : ℕ)
  | rows (found : List (ℕ × ℕ))

/-- Add the rows of orders to a table; no id may be there twice. -/
def insertOrderRows (rows : List OrderRow) (orders : List Order) : Option (List OrderRow) :=
  match orders.mapM orderRow with
  | some new => if ((rows ++ new).map OrderRow.id).Nodup then some (rows ++ new) else none
  | none => none

namespace SliceDb

def setOrders (d : SliceDb) (time : ℕ) (rows : Option (List OrderRow)) : SliceDb :=
  { d with orders := Function.update d.orders time rows }

def setBalances (d : SliceDb) (time : ℕ) (rows : Option (List BalanceRow)) : SliceDb :=
  { d with balances := Function.update d.balances time rows }

/-- What the server does with a statement. -/
def exec : Server SliceQuery SliceAnswer SliceDb
  | .connect, d => some (.ok, d)
  | .dropOrders time ifExists, d =>
      if ifExists ∨ (d.orders time).isSome then some (.ok, d.setOrders time none) else none
  | .createOrders time, d =>
      some (.ok, d.setOrders time (some ((d.orders time).getD [])))
  | .insertOrders time orders, d =>
      ((d.orders time).bind fun rows => insertOrderRows rows orders).map fun rows =>
        (.ok, d.setOrders time (some rows))
  | .dropBalances time ifExists, d =>
      if ifExists ∨ (d.balances time).isSome then some (.ok, d.setBalances time none) else none
  | .createBalances time, d =>
      some (.ok, d.setBalances time (some ((d.balances time).getD [])))
  | .insertBalances time entries, d =>
      ((d.balances time).bind fun rows =>
        (balanceRows (rows.length + 1) entries).map fun new => rows ++ new).map fun rows =>
          (.ok, d.setBalances time (some rows))
  | .insertHistory time endOperId endOrderId endDealsId, d =>
      let row : SliceRow := ⟨d.nextId, time, endOperId, endOrderId, endDealsId⟩
      some (.ok, { d with
        history := d.history ++ [row]
        nextId := d.nextId + 1
        recorded := d.recorded ++ [row] })
  | .countSince since, d =>
      some (.count (d.history.countP fun row => since ≤ row.time), d)
  | .selectBefore before, d =>
      some (.rows ((d.history.filter fun row => (row.time : ℤ) < before).map
        fun row => (row.id, row.time)), d)
  | .deleteHistory id, d =>
      some (.ok, { d with history := d.history.filter fun row => row.id ≠ id })

/-- `get_last_slice`: the row of the greatest id. -/
def lastSlice (d : SliceDb) : Option SliceRow :=
  d.history.argmax SliceRow.id

end SliceDb

/-! ## Dumping -/

/-- What a dump writes: the two lists of every configured market, the balances,
and the counters at the time of the fork. -/
structure Slice where
  markets : List (Option (List Order × List Order))
  balances : List BalanceEntry
  endOperId : ℕ
  endOrderId : ℕ
  endDealsId : ℕ

/-- The copy of the engine a forked child works on. -/
def Engine.slice [Settings] (e : Engine) : Slice where
  markets := Settings.markets.map fun conf => (dictFind e.markets conf.name).map fun m =>
    (m.asks.filterMap e.world.heap, m.bids.filterMap e.world.heap)
  balances := e.world.ledger.balances.entries.map fun entry => (entry.1, entry.2)
  endOperId := e.operlogIdStart
  endOrderId := e.world.orderIdStart
  endDealsId := e.world.dealsIdStart

/-- A client of the slice tables; an integer result is a return code. -/
abbrev SliceClient (α : Type) : Type := Client SliceQuery SliceAnswer α

/-- `mysql_real_query`: zero, or a positive code on error. -/
def mysqlRealQuery (statement : SliceQuery) : SliceClient ℤ :=
  .query statement fun answer => .done (if answer.isSome then 0 else 1)

/-- `insert_limit`. -/
def insertLimit : ℕ := 1000

section Dump

variable {ρ : Type}

/-- The loop of `dump_orders_list` and `dump_balance_dict`, with the rows of the
statement being written in `pending`. A failed statement is looked for with
`ret < 0`. -/
def dumpRows (insert : List ρ → SliceQuery) : List ρ → List ρ → SliceClient ℤ
  | pending, [] => do
      if pending.length > 0 then
        let ret ← mysqlRealQuery (insert pending)
        if ret < 0 then pure (-1) else pure 0
      else pure 0
  | pending, row :: rest => do
      if (pending ++ [row]).length = insertLimit then
        let ret ← mysqlRealQuery (insert (pending ++ [row]))
        if ret < 0 then pure (-1) else dumpRows insert [] rest
      else dumpRows insert (pending ++ [row]) rest

end Dump

def dumpOrdersList (time : ℕ) (list : List Order) : SliceClient ℤ :=
  dumpRows (.insertOrders time) [] list

/-- The loop of `dump_orders` over the configured markets. -/
def dumpMarkets (time : ℕ) : List (Option (List Order × List Order)) → SliceClient ℤ
  | [] => pure 0
  | none :: _ => pure (-1)
  | some (asks, bids) :: rest => do
      let ret ← dumpOrdersList time asks
      if ret < 0 then pure (-1)
      else
        let ret ← dumpOrdersList time bids
        if ret < 0 then pure (-1) else dumpMarkets time rest

def dumpOrders (time : ℕ) (markets : List (Option (List Order × List Order))) :
    SliceClient ℤ := do
  let ret ← mysqlRealQuery (.dropOrders time true)
  if ret ≠ 0 then pure (-1)
  else
    let ret ← mysqlRealQuery (.createOrders time)
    if ret ≠ 0 then pure (-1) else dumpMarkets time markets

def dumpBalanceDict (time : ℕ) (dict : List BalanceEntry) : SliceClient ℤ :=
  dumpRows (.insertBalances time) [] dict

def dumpBalance (time : ℕ) (dict : List BalanceEntry) : SliceClient ℤ := do
  let ret ← mysqlRealQuery (.dropBalances time true)
  if ret ≠ 0 then pure (-1)
  else
    let ret ← mysqlRealQuery (.createBalances time)
    if ret ≠ 0 then pure (-1)
    else
      let ret ← dumpBalanceDict time dict
      if ret < 0 then pure (-1) else pure 0

def updateSliceHistory (time : ℕ) (s : Slice) : SliceClient ℤ := do
  let ret ← mysqlRealQuery (.insertHistory time s.endOperId s.endOrderId s.endDealsId)
  if ret < 0 then pure (-1) else pure 0

def dumpToDb (time : ℕ) (s : Slice) : SliceClient ℤ := do
  let ret ← mysqlRealQuery .connect
  if ret ≠ 0 then pure (-1)
  else
    let ret ← dumpOrders time s.markets
    if ret < 0 then pure (-1)
    else
      let ret ← dumpBalance time s.balances
      if ret < 0 then pure (-1) else updateSliceHistory time s

/-! ## Clearing -/

/-- `delete_slice`. -/
def deleteSlice (id time : ℕ) : SliceClient ℤ := do
  let ret ← mysqlRealQuery (.dropOrders time false)
  if ret ≠ 0 then pure (-1)
  else
    let ret ← mysqlRealQuery (.dropBalances time false)
    if ret ≠ 0 then pure (-1)
    else
      let ret ← mysqlRealQuery (.deleteHistory id)
      if ret ≠ 0 then pure (-1) else pure 0

/-- The loop of `clear_slice` over the rows it selected. -/
def deleteSlices : List (ℕ × ℕ) → SliceClient ℤ
  | [] => pure 0
  | (id, time) :: rest => do
      let ret ← deleteSlice id time
      if ret < 0 then pure ret else deleteSlices rest

/-- `slice_count`. -/
def sliceCount (since : ℤ) : SliceClient ℤ :=
  .query (.countSince since) fun answer =>
    match answer with
    | some (.count rows) => .done rows
    | _ => .done (-1)

/-- `clear_slice`, with `settings.slice_keeptime`. -/
def clearSlice (keeptime : ℕ) (time : ℕ) : SliceClient ℤ := do
  let ret ← mysqlRealQuery .connect
  if ret ≠ 0 then pure (-1)
  else
    let ret ← sliceCount ((time : ℤ) - keeptime)
    if ret < 0 then pure ret
    else if ret = 0 then pure ret
    else
      .query (.selectBefore ((time : ℤ) - keeptime)) fun answer =>
        match answer with
        | some (.rows found) => deleteSlices found
        | _ => .done (-1)

/-- The child of `make_slice`: the dump and, whatever it returns, the clearing. -/
def makeSlice (keeptime time : ℕ) (s : Slice) : SliceClient Unit := do
  let _ ← dumpToDb time s
  let _ ← clearSlice keeptime time
  pure ()

end ViabtcServer.MatchEngine
