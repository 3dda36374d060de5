import ViabtcServer.MatchEngine.Load
import ViabtcServer.MatchEngine.LimitOrder
import ViabtcServer.MatchEngine.MarketOrder
import ViabtcServer.MatchEngine.Arguments

/-!
# What handlers and log replay do

Every handler either refuses and leaves the engine as it was, or installs the
result of one operation on one market. The functions of the log replay do the
same without the refusals.
-/

namespace ViabtcServer.MatchEngine

open Decimal Container

variable [Libmpdec] [Settings] {e e' : Engine} {now : Time} {fuel padding : ℕ}
  {params : List Json} {reply : Reply} {real : Bool}

/-- The handler refused: an error is answered and nothing has changed. -/
def Refused (e : Engine) (reply : Reply) (e' : Engine) : Prop :=
  (∃ code message, reply = .error code message) ∧ e' = e

omit [Libmpdec] [Settings] in
theorem Refused.error (e : Engine) (code : ℕ) (message : String) :
    Refused e (.error code message) e :=
  ⟨⟨code, message, rfl⟩, rfl⟩

/-! ## Limit orders -/

/-- The limit order of these arguments is run. -/
def LimitArgs.put (a : LimitArgs) (real : Bool) (now : Time) (fuel : ℕ) (w : World) :
    Option Outcome :=
  marketPutLimitOrder real now fuel a.market w a.userId a.side a.amount a.price a.takerFee
    a.makerFee a.source

/-- Where the limit order of these arguments starts matching. -/
def LimitArgs.start (a : LimitArgs) (now : Time) (w : World) : LoopState :=
  limitStart now a.market w a.userId a.side a.amount a.price a.takerFee a.makerFee a.source

theorem restOrFinish_ret (real : Bool) (st : LoopState) : (restOrFinish real st).ret = 0 := by
  simp only [restOrFinish]
  split <;> rfl

theorem restOrFinish_info (st : LoopState) :
    (restOrFinish real st).info = replyInfo real st.taker := by
  simp only [restOrFinish]
  split <;> rfl

theorem onCmdOrderPutLimit_cases
    (run : onCmdOrderPutLimit now fuel e params = some (reply, e')) :
    Refused e reply e' ∨ ∃ a st', readLimitArgs liveTooLong e.markets params = .ok a ∧
      a.put true now fuel e.world = some (restOrFinish true st') ∧
      execute true now fuel (limitRule a.side) (a.start now e.world) = some st' ∧
      reply = .order st'.taker ∧
      e' = appendOperlog now (e.install a.name (restOrFinish true st')) "limit_order" params := by
  unfold onCmdOrderPutLimit at run
  split at run
  · obtain ⟨rfl, rfl⟩ := Prod.mk.inj (Option.some.inj run)
    exact Or.inl (.error _ _ _)
  rename_i a read
  obtain ⟨outcome, put, result⟩ := Option.map_eq_some_iff.mp run
  rcases marketPutLimitOrder_cases put with ⟨code, rfl | rfl, rfl⟩ | ⟨_, _, st', executed, rfl⟩
  · obtain ⟨rfl, rfl⟩ := Prod.mk.inj result
    exact Or.inl (.error _ _ _)
  · obtain ⟨rfl, rfl⟩ := Prod.mk.inj result
    exact Or.inl (.error _ _ _)
  · simp only [restOrFinish_ret, restOrFinish_info, replyInfo, if_true] at result
    obtain ⟨rfl, rfl⟩ := Prod.mk.inj result
    exact Or.inr ⟨a, st', read, put, executed, rfl, rfl⟩

theorem loadLimitOrder_cases (run : loadLimitOrder now fuel e params = some (some e')) :
    e' = e ∨ ∃ a st', readLimitArgs loadTooLong e.markets params = .ok a ∧
      a.put false now fuel e.world = some (restOrFinish false st') ∧
      execute false now fuel (limitRule a.side) (a.start now e.world) = some st' ∧
      e' = e.install a.name (restOrFinish false st') := by
  unfold loadLimitOrder at run
  split at run
  · exact Or.inl (Option.some.inj (Option.some.inj run)).symm
  · cases run
  rename_i a read
  obtain ⟨outcome, put, result⟩ := Option.map_eq_some_iff.mp run
  rcases marketPutLimitOrder_cases put with ⟨code, rfl | rfl, rfl⟩ | ⟨_, _, st', executed, rfl⟩
  · cases result
  · cases result
  · rw [restOrFinish_ret] at result
    exact Or.inr ⟨a, st', read, put, executed, (Option.some.inj result).symm⟩

/-! ## Market orders -/

/-- The market order of these arguments is run. -/
def MarketArgs.put (a : MarketArgs) (real : Bool) (now : Time) (fuel : ℕ) (w : World) :
    Option Outcome :=
  marketPutMarketOrder real now fuel a.market w a.userId a.side a.amount a.takerFee a.source

/-- Where the market order of these arguments starts matching. -/
def MarketArgs.start (a : MarketArgs) (now : Time) (w : World) (best : Order) : LoopState :=
  marketStart now a.market w best a.userId a.side a.amount a.takerFee a.source

theorem onCmdOrderPutMarket_cases
    (run : onCmdOrderPutMarket now fuel e params = some (reply, e')) :
    Refused e reply e' ∨ ∃ a best st', readMarketArgs liveTooLong e.markets params = .ok a ∧
      a.put true now fuel e.world = some (finishMarket true st') ∧
      execute true now fuel (marketRule a.side) (a.start now e.world best) = some st' ∧
      reply = .order st'.taker ∧
      e' = appendOperlog now (e.install a.name (finishMarket true st')) "market_order"
        params := by
  unfold onCmdOrderPutMarket at run
  split at run
  · obtain ⟨rfl, rfl⟩ := Prod.mk.inj (Option.some.inj run)
    exact Or.inl (.error _ _ _)
  rename_i a read
  obtain ⟨outcome, put, result⟩ := Option.map_eq_some_iff.mp run
  rcases marketPutMarketOrder_cases put with
    ⟨code, rfl | rfl | rfl, rfl⟩ | ⟨_, _, best, st', _, _, _, executed, rfl⟩
  · obtain ⟨rfl, rfl⟩ := Prod.mk.inj result
    exact Or.inl (.error _ _ _)
  · obtain ⟨rfl, rfl⟩ := Prod.mk.inj result
    exact Or.inl (.error _ _ _)
  · obtain ⟨rfl, rfl⟩ := Prod.mk.inj result
    exact Or.inl (.error _ _ _)
  · obtain ⟨rfl, rfl⟩ := Prod.mk.inj result
    exact Or.inr ⟨a, best, st', read, put, executed, rfl, rfl⟩

theorem loadMarketOrder_cases (run : loadMarketOrder now fuel e params = some (some e')) :
    e' = e ∨ ∃ a best st', readMarketArgs loadTooLong e.markets params = .ok a ∧
      a.put false now fuel e.world = some (finishMarket false st') ∧
      execute false now fuel (marketRule a.side) (a.start now e.world best) = some st' ∧
      e' = e.install a.name (finishMarket false st') := by
  unfold loadMarketOrder at run
  split at run
  · exact Or.inl (Option.some.inj (Option.some.inj run)).symm
  · cases run
  rename_i a read
  obtain ⟨outcome, put, result⟩ := Option.map_eq_some_iff.mp run
  rcases marketPutMarketOrder_cases put with
    ⟨code, rfl | rfl | rfl, rfl⟩ | ⟨_, _, best, st', _, _, _, executed, rfl⟩
  · cases result
  · cases result
  · cases result
  · exact Or.inr ⟨a, best, st', read, put, executed, (Option.some.inj result).symm⟩

/-! ## Cancels -/

theorem onCmdOrderCancel_cases (run : onCmdOrderCancel now e params = (reply, e')) :
    Refused e reply e' ∨ ∃ a ref order, readCancelArgs e.markets params = .ok a ∧
      marketGetOrder a.market e.world a.orderId = some (ref, order) ∧ order.userId = a.userId ∧
      reply = .order order ∧
      e' = appendOperlog now
        (e.install a.name (marketCancelOrder true a.market e.world ref order)) "cancel_order"
        params := by
  unfold onCmdOrderCancel at run
  split at run
  · obtain ⟨rfl, rfl⟩ := Prod.mk.inj run
    exact Or.inl (.error _ _ _)
  rename_i a read
  split at run
  · obtain ⟨rfl, rfl⟩ := Prod.mk.inj run
    exact Or.inl (.error _ _ _)
  rename_i ref order found
  split at run
  · obtain ⟨rfl, rfl⟩ := Prod.mk.inj run
    exact Or.inl (.error _ _ _)
  rename_i owner
  obtain ⟨rfl, rfl⟩ := Prod.mk.inj run
  exact Or.inr ⟨a, ref, order, read, found, not_not.mp owner, rfl, rfl⟩

theorem loadCancelOrder_cases (run : loadCancelOrder e params = some e') :
    e' = e ∨ ∃ a ref order, readCancelArgs e.markets params = .ok a ∧
      marketGetOrder a.market e.world a.orderId = some (ref, order) ∧
      e' = e.install a.name (marketCancelOrder false a.market e.world ref order) := by
  unfold loadCancelOrder at run
  split at run
  · exact Or.inl (Option.some.inj run).symm
  · cases run
  rename_i a read
  split at run
  · cases run
  rename_i ref order found
  exact Or.inr ⟨a, ref, order, read, found, (Option.some.inj run).symm⟩

/-! ## Balance updates -/

/-- The balance call of an update. -/
def UpdateArgs.call (a : UpdateArgs) (ledger : Ledger) : Option Mpd × Ledger :=
  if mpdCmp a.change mpdZero ≥ 0 then
    balanceAdd ledger ⟨a.userId, .available, a.asset⟩ (mpdAbs a.change)
  else balanceSub ledger ⟨a.userId, .available, a.asset⟩ (mpdAbs a.change)

/-- An update is a repeat, is refused by the ledger, or goes through and is
remembered. -/
theorem updateUserBalance_cases (real : Bool) (now : Time) (padding : ℕ) (e : Engine)
    (a : UpdateArgs) :
    updateUserBalance real now padding e a = (-1, e) ∨
      updateUserBalance real now padding e a = (-2, e) ∨
      ∃ result ledger first second,
        dictFind e.updates (updateKey padding a.userId a.asset a.business a.businessId) = none ∧
        a.call e.world.ledger = (some result, ledger) ∧
        updateUserBalance real now padding e a = (0,
          { e with
            world := ({ e.world with ledger := ledger }.emit real first).emit real second
            updates := dictReplace e.updates
              (updateKey padding a.userId a.asset a.business a.businessId) now }) := by
  simp only [updateUserBalance]
  split
  · exact Or.inl rfl
  rename_i fresh
  have call : (if mpdCmp a.change mpdZero ≥ 0 then
      balanceAdd e.world.ledger ⟨a.userId, .available, a.asset⟩ (mpdAbs a.change)
    else balanceSub e.world.ledger ⟨a.userId, .available, a.asset⟩ (mpdAbs a.change)) =
      a.call e.world.ledger := rfl
  rw [call]
  split
  · exact Or.inr (Or.inl rfl)
  · rename_i result ledger answered
    exact Or.inr (Or.inr ⟨result, ledger, _, _, fresh, answered, rfl⟩)

/-- The parameter list as the log records it: the update has left its id in the
detail object. -/
def UpdateArgs.logged (a : UpdateArgs) (user business businessId change : Json) : List Json :=
  [user, .string a.asset, business, businessId, change,
    .object (jsonObjectSet a.detail "id" (.integer (ofUint64 a.businessId)))]

theorem onCmdBalanceUpdate_cases
    (run : onCmdBalanceUpdate now padding e params = (reply, e')) :
    Refused e reply e' ∨ ∃ user business businessId change detail a e₁,
      params = [user, .string a.asset, business, businessId, change, detail] ∧
      0 ≤ assetPrecShow a.asset ∧
      readUpdateArgs (assetPrecShow a.asset) user (.string a.asset) business businessId change
        detail = .ok a ∧
      updateUserBalance true now padding e a = (0, e₁) ∧ reply = .success ∧
      e' = appendOperlog now e₁ "update_balance" (a.logged user business businessId change) := by
  unfold onCmdBalanceUpdate at run
  split at run
  · rename_i user asset business businessId change detail
    simp only at run
    split at run
    · obtain ⟨rfl, rfl⟩ := Prod.mk.inj run
      exact Or.inl (.error _ _ _)
    rename_i known
    split at run
    · obtain ⟨rfl, rfl⟩ := Prod.mk.inj run
      exact Or.inl (.error _ _ _)
    rename_i a read
    obtain ⟨_, _, _, _, same, _⟩ := readUpdateArgs_eq_ok.mp read
    obtain rfl := Json.string.inj same
    rcases updateUserBalance_cases true now padding e a with
      repeated | refused | ⟨_, _, _, _, _, _, updated⟩
    · rw [repeated] at run
      obtain ⟨rfl, rfl⟩ := Prod.mk.inj run
      exact Or.inl (.error _ _ _)
    · rw [refused] at run
      obtain ⟨rfl, rfl⟩ := Prod.mk.inj run
      exact Or.inl (.error _ _ _)
    · rw [updated] at run
      obtain ⟨rfl, rfl⟩ := Prod.mk.inj run
      exact Or.inr ⟨user, business, businessId, change, detail, a, _, rfl, not_lt.mp known, read,
        updated, rfl, rfl⟩
  · obtain ⟨rfl, rfl⟩ := Prod.mk.inj run
    exact Or.inl (.error _ _ _)

theorem loadUpdateBalance_cases (run : loadUpdateBalance now padding e params = some e') :
    e' = e ∨ ∃ user business businessId change detail a,
      params = [.integer user, .string a.asset, business, businessId, change, detail] ∧
      0 ≤ assetPrec a.asset ∧
      readUpdateArgs (assetPrec a.asset) (.integer user) (.string a.asset) business businessId
        change detail = .ok a ∧
      updateUserBalance false now padding e a = (0, e') := by
  unfold loadUpdateBalance at run
  split at run
  · rename_i user asset business businessId change detail
    simp only at run
    split at run
    · exact Or.inl (Option.some.inj run).symm
    rename_i known
    split at run
    · cases run
    rename_i a read
    obtain ⟨_, _, _, _, same, _⟩ := readUpdateArgs_eq_ok.mp read
    obtain rfl := Json.string.inj same
    rcases updateUserBalance_cases false now padding e a with
      repeated | refused | ⟨_, _, _, _, _, _, updated⟩
    · rw [repeated] at run
      cases run
    · rw [refused] at run
      cases run
    · rw [updated] at run
      refine Or.inr ⟨user, business, businessId, change, detail, a, rfl, not_lt.mp known, read, ?_⟩
      rw [updated, ← Option.some.inj run]
  · cases run

end ViabtcServer.MatchEngine
