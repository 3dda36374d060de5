import ViabtcServer.Container.Paging
import ViabtcServer.MatchEngine.Server

/-!
# Replaying logged operations

`me_load.c` reads the logged parameter lists with its own checks and runs the
engine with `real` false. The outer `none` is a function that never returns,
the inner one a negative return code, on which the start of the engine fails.
-/

namespace ViabtcServer.MatchEngine

open Decimal Container

variable [Libmpdec] [Settings]

/-- The change is read with the precision balances are stored with. -/
def loadUpdateBalance (now : Time) (padding : ℕ) (e : Engine) (params : List Json) :
    Option Engine :=
  match params with
  | [.integer user, .string asset, business, businessId, change, detail] =>
      let prec := assetPrec asset
      if prec < 0 then some e
      else
        match readUpdateArgs prec (.integer user) (.string asset) business businessId change
          detail with
        | .error _ => none
        | .ok args =>
            match updateUserBalance false now padding e args with
            | (ret, e) => if ret < 0 then none else some e
  | _ => none

/-- The source of a logged order has at most `SOURCE_MAX_LEN` bytes. -/
def loadTooLong (source : String) : Bool :=
  source.utf8ByteSize > sourceMaxLen

/-- An order of a market that is no longer configured is skipped. -/
def loadLimitOrder (now : Time) (fuel : ℕ) (e : Engine) (params : List Json) :
    Option (Option Engine) :=
  match readLimitArgs loadTooLong e.markets params with
  | .error .noMarket => some (some e)
  | .error .invalid => some none
  | .ok a =>
      (marketPutLimitOrder false now fuel a.market e.world a.userId a.side a.amount a.price
        a.takerFee a.makerFee a.source).map fun outcome =>
        if outcome.ret < 0 then none else some (e.install a.name outcome)

def loadMarketOrder (now : Time) (fuel : ℕ) (e : Engine) (params : List Json) :
    Option (Option Engine) :=
  match readMarketArgs loadTooLong e.markets params with
  | .error .noMarket => some (some e)
  | .error .invalid => some none
  | .ok a =>
      (marketPutMarketOrder false now fuel a.market e.world a.userId a.side a.amount a.takerFee
        a.source).map fun outcome =>
        if outcome.ret < 0 then none else some (e.install a.name outcome)

/-- The owner of the order is not compared. -/
def loadCancelOrder (e : Engine) (params : List Json) : Option Engine :=
  match readCancelArgs e.markets params with
  | .error .noMarket => some e
  | .error .invalid => none
  | .ok a =>
      match marketGetOrder a.market e.world a.orderId with
      | none => none
      | some (ref, order) =>
          some (e.install a.name (marketCancelOrder false a.market e.world ref order))

/-- `load_oper` on a logged method and its parameters. -/
def loadOper (now : Time) (fuel padding : ℕ) (e : Engine) (method : String)
    (params : List Json) : Option (Option Engine) :=
  if method = "update_balance" then some (loadUpdateBalance now padding e params)
  else if method = "limit_order" then loadLimitOrder now fuel e params
  else if method = "market_order" then loadMarketOrder now fuel e params
  else if method = "cancel_order" then some (loadCancelOrder e params)
  else some none

/-! ## A table of the log -/

/-- The limit of every query that reads a table in pages. -/
def queryLimit : ℕ := 1000

/-- One row of `load_operlog`, with the id of the row before it. The clock is
read anew for every row. -/
def loadRow (clock : OperLog → Time) (fuel : ℕ) (padding : OperLog → ℕ) (state : ℕ × Engine)
    (row : OperLog) : OptionT Option (ℕ × Engine) :=
  if row.id ≠ state.1 + 1 then failure
  else do
    let e ← OptionT.mk (loadOper (clock row) fuel (padding row) state.2 row.method row.params)
    pure (row.id, e)

/-- `load_operlog` on the rows of one table: the rows past `start` are replayed
and the last id is returned. -/
def loadOperlog (clock : OperLog → Time) (fuel : ℕ) (padding : OperLog → ℕ) (rows : List OperLog)
    (start : ℕ) (e : Engine) : OptionT Option (ℕ × Engine) :=
  readTable OperLog.id queryLimit (loadRow clock fuel padding) rows start (start, e)

end ViabtcServer.MatchEngine
