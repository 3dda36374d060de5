import ViabtcServer.MatchEngine.Exactness

/-!
# Commands without rounding

An order, a cancel or a balance update rounds nothing while the supply of each
asset stays below half of what the context can hold, and afterwards it still
does: only balance updates add to the supply.
-/

namespace ViabtcServer.MatchEngine

open Decimal Container

/-! ## One market -/

section Room

variable [Settings] {digits : String → ℤ} {m : Market} {w w' : World} {conf : MarketConf}

/-- A market between commands: nothing has rounded and there is room for what
its orders may still do. -/
structure Room (digits : String → ℤ) (m : Market) (w : World) : Prop where
  exact : w.ledger.exact = true
  covers : Covers digits m.toMarketConf
  supply : ∀ side, 2 * w.ledger.total (m.gives side) < capacity (digits (m.gives side))
  spare : ∀ {ref o}, m.Rests w.heap ref o → o.Spare m.toMarketConf

/-- What a command on a market keeps of it. -/
structure RoomKept (m m' : Market) (w w' : World) : Prop where
  exact : w'.ledger.exact = true
  totals : w'.totals = w.totals
  supply : ∀ asset, w'.ledger.total asset ≤ w.ledger.total asset
  spare : ∀ {ref o}, m'.Rests w'.heap ref o → o.Spare m.toMarketConf

theorem Room.kept (room : Room digits m w) : RoomKept m m w w :=
  ⟨room.exact, rfl, fun _ => le_rfl, room.spare⟩

/-- Orders only take fees out of the supply. -/
theorem OrderPosts.total_le {rule : MatchRule} {user : ℕ}
    (posts : OrderPosts conf rule user w w') (asset : String) :
    w'.ledger.total asset ≤ w.ledger.total asset := by
  obtain ⟨new, moved, _, by_, accounts⟩ := posts
  have fees : (new.map fun f => assetSum asset (f.posted conf)).sum ≤ 0 := by
    have le := List.sum_le_sum (l := new) (g := fun _ => (0 : ℚ)) fun f made =>
      (by_ f made).ok.assetSum_posted_le asset
    rwa [List.map_const', List.sum_replicate, nsmul_zero] at le
  rw [Ledger.total_eq_assetSum, Ledger.total_eq_assetSum, accounts, map_add, map_add, map_sub,
    assetSum_single, assetSum_single, sub_self, map_list_sum, List.map_map, add_zero]
  exact add_le_of_nonpos_right fees

/-- The money that rests frozen is part of the supply. -/
theorem frozenSum_le_total (sound : w.ledger.Sound) (user : ℕ) (asset : String) :
    w.ledger.holds ⟨user, .available, asset⟩ + frozenSum asset w.ledger.accounts ≤
      w.ledger.total asset := by
  have le := add_frozenSum_le sound.accounts_nonneg user asset
  rwa [Ledger.accounts_apply, ← Ledger.total_eq_assetSum] at le

omit [Settings]

/-- An order that has not been filled yet. -/
structure Order.Unfilled (o : Order) : Prop where
  stock : o.dealStock = mpdZero
  money : o.dealMoney = mpdZero
  fee : o.dealFee = mpdZero

theorem Order.Unfilled.tallied {o : Order} (unfilled : o.Unfilled) (conf : MarketConf)
    (side : Side) : o.Tallied conf side := by
  have received : o.received side = mpdZero := by
    cases side with
    | ask => exact unfilled.money
    | bid => exact unfilled.stock
  constructor
  · rw [unfilled.stock]
    exact mpdZero_isFinite
  · rw [unfilled.money]
    exact mpdZero_isFinite
  · rw [unfilled.fee]
    exact mpdZero_isFinite
  · rw [unfilled.stock, mpdZero_value]
    exact .zero _
  · rw [unfilled.money, mpdZero_value]
    exact .zero _
  · rw [unfilled.fee, mpdZero_value]
    exact .zero _
  · rw [unfilled.stock, mpdZero_value]
  · rw [unfilled.money, mpdZero_value]
  · rw [unfilled.fee, mpdZero_value]
  · rw [unfilled.fee, received]

theorem newOrder_unfilled (now : Time) (m : Market) (w : World) (type : OrderType) (userId : ℕ)
    (side : Side) (amount price takerFee makerFee : Mpd) (source : String) :
    (newOrder now m w type userId side amount price takerFee makerFee source).Unfilled :=
  ⟨rfl, rfl, rfl⟩

/-- Orders keep what they have received when they are put to rest. -/
theorem Order.Tallied.placed {o : Order} [Libmpdec] (tallied : o.Tallied conf o.side)
    (stock : o.dealStock.value + o.left.value < capacity (conf.stockPrec + conf.feePrec))
    (money : o.dealMoney.value + o.price.value * o.left.value <
      capacity (conf.stockPrec + conf.moneyPrec + conf.feePrec)) : o.placed.Spare conf where
  toTallied := { tallied with }
  stock := stock
  money := money

end Room

/-! ## Limit orders -/

section Limit

variable [Libmpdec] [Settings] {digits : String → ℤ} {m : Market} {w : World}
  {held : ℕ → String → ℚ} {real : Bool} {now : Time} {fuel : ℕ} {userId : ℕ} {side : Side}
  {amount price takerFee makerFee : Mpd} {source : String}

omit [Settings] in
/-- The rule of a limit order, with the room its taker leaves. -/
theorem limitRule_roomy (side : Side) : ∃ ok need, (limitRule side).Fair ok need ∧
    (limitRule side).Roomy ok (fun _ taker => taker.left.value)
      (fun _ taker => taker.price.value * taker.left.value) ∧
    (∀ {conf : MarketConf} {taker : Order}, BidTaker conf taker → ok conf taker) ∧
    (∀ {conf : MarketConf} {taker : Order}, ok conf taker → StockTaker conf taker) ∧
    ∀ taker : Order, taker.side = side → need taker = taker.frozen := by
  cases side with
  | ask =>
      refine ⟨_, _, limitAskRule_fair, limitAskRule_roomy, BidTaker.toStockTaker, id, ?_⟩
      intro taker side
      simp [Order.frozen, side]
  | bid =>
      refine ⟨_, _, limitBidRule_fair, limitBidRule_roomy, id, BidTaker.toStockTaker, ?_⟩
      intro taker side
      simp [Order.frozen, side]

/-- The test of the balance bounds the money of a bid, so its product is the
true one. -/
theorem limitRequire_value (terms : LimitTerms m.toMarketConf amount price takerFee makerFee)
    (room : Room digits m w) (sound : w.ledger.Sound)
    (fine : m.stockPrec + m.moneyPrec ≤ -mpdEtiny)
    (covered : lacks w.ledger ⟨userId, .available, m.money⟩ (mpdMul amount price) = false) :
    (mpdMul amount price).value = amount.value * price.value := by
  have product := Libmpdec.mul_finite terms.amountFinite terms.priceFinite
  have rounds := Libmpdec.mul_rounds terms.amountFinite terms.priceFinite
  have nonneg := rounds.nonneg (mul_pos terms.amountPos terms.pricePos).le
  have grid : OnGrid (-(m.stockPrec + m.moneyPrec)) (amount.value * price.value) := by
    have grid := terms.amountDigits.onGrid.mul terms.priceDigits.onGrid
    rwa [← neg_add] at grid
  apply rounds.eq_of_small grid fine
  rw [abs_of_nonneg nonneg]
  have le := (lacks_covers sound product covered).trans (sound.holds_le_total _)
  have supply := room.supply .bid
  have below := capacity_anti (show m.stockPrec + m.moneyPrec ≤ digits m.money by
    linarith [room.covers.fee, terms.takerFee.digits.nonneg])
  change 2 * w.ledger.total m.money < capacity (digits m.money) at supply
  change (mpdMul amount price).value ≤ w.ledger.total m.money at le
  linarith

/-- What an admitted limit order may pay is exact. -/
theorem limitStart_exact (terms : LimitTerms m.toMarketConf amount price takerFee makerFee)
    (room : Room digits m w) (sound : w.ledger.Sound)
    (bids : side = .bid → m.stockPrec + m.moneyPrec ≤ -mpdEtiny)
    (covered : lacks w.ledger ⟨userId, .available, m.gives side⟩ (limitRequire side amount price) =
      false) :
    (limitStart now m w userId side amount price takerFee makerFee
      source).world.ledger.exact = true := by
  cases side with
  | ask => exact room.exact
  | bid =>
      simp only [limitStart, orderStart, World.observeRequire, World.observe_ledger,
        Ledger.exact_observe]
      exact ⟨room.exact, limitRequire_value terms room sound (bids rfl) covered⟩

/-- The stock and the money of an admitted limit order have room. -/
theorem limit_room (terms : LimitTerms m.toMarketConf amount price takerFee makerFee)
    (ok : m.toMarketConf.Ok) (room : Room digits m w) (sound : w.ledger.Sound)
    (asks : side = .ask → 2 * (price.value * amount.value) <
      capacity (m.stockPrec + m.moneyPrec + m.feePrec))
    (bids : side = .bid → m.stockPrec + m.moneyPrec ≤ -mpdEtiny)
    (covered : lacks w.ledger ⟨userId, .available, m.gives side⟩ (limitRequire side amount price) =
      false) :
    amount.value < capacity (m.stockPrec + m.feePrec) ∧
      price.value * amount.value + frozenSum m.money w.ledger.accounts <
        capacity (m.stockPrec + m.moneyPrec + m.feePrec) := by
  have money : 2 * w.ledger.total m.money < capacity (digits m.money) := room.supply .bid
  have stock : 2 * w.ledger.total m.stock < capacity (digits m.stock) := room.supply .ask
  have moneyDigits := capacity_anti room.covers.fee
  have stockDigits := capacity_anti (ok.bidFeePrec.trans room.covers.stock)
  have frozen := frozenSum_le_total sound userId m.money
  have available := sound.holds_nonneg ⟨userId, .available, m.money⟩
  have frozenNonneg := frozenSum_nonneg m.money sound.accounts_nonneg
  cases side with
  | ask =>
      have le := (lacks_covers sound terms.amountFinite covered).trans (sound.holds_le_total _)
      change amount.value ≤ w.ledger.total m.stock at le
      have least := asks rfl
      have amountPos := terms.amountPos
      constructor <;> linarith
  | bid =>
      have product := Libmpdec.mul_finite terms.amountFinite terms.priceFinite
      have le := lacks_covers sound product covered
      rw [limitRequire_value terms room sound (bids rfl) covered] at le
      change amount.value * price.value ≤ w.ledger.holds ⟨userId, .available, m.money⟩ at le
      have unit : (0 : ℚ) < 10 ^ m.moneyPrec := zpow_pos (by norm_num) _
      have least : 1 ≤ price.value * 10 ^ m.moneyPrec := by
        have unit_le := terms.priceDigits.onGrid.unit_le terms.pricePos
        rwa [zpow_neg, inv_le_iff_one_le_mul₀ unit] at unit_le
      have shift := capacity_shift
        (add_nonneg terms.amountDigits.nonneg terms.takerFee.digits.nonneg) terms.priceDigits.nonneg
      rw [show m.stockPrec + m.feePrec + m.moneyPrec = m.stockPrec + m.moneyPrec + m.feePrec by
        ring] at shift
      constructor
      · refine lt_of_lt_of_le ?_ shift
        have bought : amount.value ≤ amount.value * price.value * 10 ^ m.moneyPrec := by
          rw [mul_assoc]
          exact le_mul_of_one_le_right terms.amountPos.le least
        refine lt_of_le_of_lt bought (mul_lt_mul_of_pos_right ?_ unit)
        linarith
      · rw [mul_comm price.value]
        linarith

/-- An admitted limit order starts its loop with room. -/
theorem limitStart_fitting (terms : LimitTerms m.toMarketConf amount price takerFee makerFee)
    (ok : m.toMarketConf.Ok) (room : Room digits m w) (sound : w.ledger.Sound)
    (asks : side = .ask → 2 * (price.value * amount.value) <
      capacity (m.stockPrec + m.moneyPrec + m.feePrec))
    (bids : side = .bid → m.stockPrec + m.moneyPrec ≤ -mpdEtiny)
    (covered : lacks w.ledger ⟨userId, .available, m.gives side⟩ (limitRequire side amount price) =
      false) :
    Fitting digits (fun _ taker => taker.left.value)
      (fun _ taker => taker.price.value * taker.left.value) (limitRule side)
      (limitStart now m w userId side amount price takerFee makerFee source) := by
  have observed := w.observeRequire_observed side amount price
  have unfilled := newOrder_unfilled now m (w.observeRequire side amount price) .limit userId side
    amount price takerFee makerFee source
  obtain ⟨stock, money⟩ := limit_room terms ok room sound asks bids covered
  refine ⟨limitStart_exact terms room sound bids covered, ?_, ?_, terms.pricePos.le, ?_, ?_, ?_, ?_⟩
  · intro side
    exact (congrArg (2 * ·) (observed.total (m.gives side))).trans_lt (room.supply side)
  · exact unfilled.tallied m.toMarketConf _
  · apply terms.amountDigits.onGrid.mono
    change -(m.stockPrec + m.moneyPrec) ≤ -m.stockPrec
    linarith [terms.priceDigits.nonneg]
  · change mpdZero.value + amount.value < _
    rwa [mpdZero_value, zero_add]
  · change mpdZero.value + price.value * amount.value +
      frozenSum m.money (w.observeRequire side amount price).ledger.accounts < _
    rwa [mpdZero_value, zero_add, observed.accounts]
  · intro ref o rests
    refine room.spare ⟨?_, rests.2⟩
    rw [← observed.heap]
    exact rests.1

/-- Putting an order to rest rounds nothing while the money of a bid has room. -/
theorem orderPut_fits {order : Order} (ok : m.toMarketConf.Ok)
    (covers : Covers digits m.toMarketConf) (index : IndexInv m w.heap)
    (opened : order.Open m.toMarketConf)
    (unused : ∀ side, w.nextRef ∉ m.book side)
    (fresh : ∀ {x o}, m.Rests w.heap x o → o.id ≠ order.id) (sound : w.ledger.Sound)
    (supply : ∀ side, 2 * w.ledger.total (m.gives side) < capacity (digits (m.gives side)))
    (money : order.price.value * order.left.value <
      capacity (m.stockPrec + m.moneyPrec + m.feePrec))
    (exact : w.ledger.exact = true) : (orderPut m w order).2.2.ledger.exact = true := by
  obtain ⟨m', put, _⟩ := orderPut_spec index opened.limit opened.priceFinite unused fresh
  have posts := w.place_posts sound order
  obtain ⟨type, known⟩ := ok.known order.side
  have prec := covers.gives order.side
  have digits' := opened.frozen_digits ok
  rw [assetPrec_of_some known] at prec digits'
  -- the product a bid freezes is the true one
  have freeze : (freezeAmount order).isFinite ∧ (freezeAmount order).value = order.frozen ∧
      (w.place order).ledger.exact = true := by
    unfold World.place World.observeFreeze freezeAmount Order.frozen
    cases side : order.side with
    | ask => exact ⟨opened.leftFinite, rfl, exact⟩
    | bid =>
        have product : (mpdMul order.price order.left).value =
            order.price.value * order.left.value := by
          apply mpdMul_fits opened.priceFinite opened.leftFinite (d := m.moneyPrec + m.stockPrec)
          refine .of_nonneg ?_ (mul_pos opened.pricePos opened.leftPos).le ?_
          · exact (opened.priceDigits.mul opened.leftDigits).onGrid
          · apply money.trans_le
            apply capacity_anti
            linarith [opened.takerFee.digits.nonneg]
        refine ⟨Libmpdec.mul_finite opened.priceFinite opened.leftFinite, product, ?_⟩
        rw [World.store_ledger, World.observe_ledger, Ledger.exact_observe]
        exact ⟨exact, product⟩
  obtain ⟨finite, value, placed⟩ := freeze
  rw [put, World.discard_ledger]
  have total := posts.total (m.gives order.side)
  rw [map_zero, add_zero] at total
  have below := supply order.side
  have nonneg := assetSum_nonneg (m.gives order.side) sound.accounts_nonneg
  rw [← Ledger.total_eq_assetSum] at nonneg
  refine (balanceMove_fits posts.sound known prec finite ?_ ?_ (by decide) ?_).trans placed
  · rw [value]
    exact opened.frozen_pos.le
  · rw [value]
    exact digits'.onGrid.mono (neg_le_neg prec)
  · rw [total]
    linarith

/-- A limit order rounds nothing and keeps the room. -/
theorem limitOrder_roomKept {outcome : Outcome} (inv : MarketInv m w) (room : Room digits m w)
    (sound : w.ledger.Sound) (backed : Backed held m w)
    (heldNonneg : ∀ user asset, 0 ≤ held user asset)
    (terms : LimitTerms m.toMarketConf amount price takerFee makerFee)
    (asks : side = .ask → 2 * (price.value * amount.value) <
      capacity (m.stockPrec + m.moneyPrec + m.feePrec))
    (bids : side = .bid → m.stockPrec + m.moneyPrec ≤ -mpdEtiny)
    (run : marketPutLimitOrder real now fuel m w userId side amount price takerFee makerFee source
      = some outcome) : RoomKept m outcome.market w outcome.world := by
  rcases marketPutLimitOrder_cases run with ⟨_, _, rfl⟩ | ⟨covered, _, st', executed, rfl⟩
  · exact room.kept
  obtain ⟨ok, need, fair, roomy, takes, stock, needs⟩ := limitRule_roomy side
  have observed := w.observeRequire_observed side amount price
  have starts : Starts m w (limitStart now m w userId side amount price takerFee makerFee source) :=
    orderStart_starts observed (congrArg (· + 1) observed.orderIdStart)
  have start : Trading (limitRule side) ok need held
      (limitStart now m w userId side amount price takerFee makerFee source) :=
    limitStart_trading takes needs inv sound backed terms covered
      (limitStart_exact terms room sound bids covered)
  obtain ⟨fitting, totals⟩ := execute_fits fair roomy room.covers heldNonneg start
    (limitStart_fitting terms inv.ok room sound asks bids covered) executed
  obtain ⟨trading, progress⟩ := execute_trading fair heldNonneg start executed fitting.exact
  have step := trading.marketStep inv starts progress
  have frozenNonneg := frozenSum_nonneg m.money trading.sound.accounts_nonneg
  have money := fitting.money
  have room' := fitting.stock
  rw [step.conf] at money room'
  have rest : (restOrFinish real st').world.ledger.exact = true := by
    simp only [restOrFinish]
    by_cases finished : mpdCmp st'.taker.left mpdZero = 0
    · simp only [if_pos finished, World.emit_ledger]
      exact fitting.exact
    · simp only [if_neg finished]
      have opened := limitTaker_open fair stock terms trading progress finished
      rw [← step.conf] at opened
      obtain ⟨unused, fresh⟩ := (trading.emit real (.orderMessage .put st'.taker st'.market.stock
        st'.market.money)).unused inv starts (progress.emit _ _)
      apply orderPut_fits trading.market (step.conf ▸ room.covers) _ opened unused fresh
      · rw [World.emit_ledger]
        exact trading.sound
      · rw [World.emit_ledger]
        exact fitting.supply
      · rw [step.conf]
        linarith [fitting.tallied.moneyNonneg]
      · rw [World.emit_ledger]
        exact fitting.exact
      · rw [World.emit_heap]
        exact trading.index
  obtain ⟨_, posts, rested⟩ :=
    limitOrder_served fair stock needs inv heldNonneg terms start executed rest
  refine ⟨rest, ?_, posts.total_le, ?_⟩
  · exact (restOrFinish_silent real st').totals.trans (totals.trans observed.totals)
  · intro ref o rests
    rcases rested rests with rfl | before
    · have sideEq : st'.taker.side = side := progress.taker.side
      have tallied := fitting.tallied
      rw [limitRule_side, ← sideEq, step.conf] at tallied
      exact tallied.placed room' (by linarith)
    · rw [← step.conf]
      exact fitting.makers before

end Limit

/-! ## Market orders -/

/-- The least amount of a market is a number with at most the digits of its
stock. -/
structure MarketConf.LeastOk (conf : MarketConf) : Prop where
  finite : conf.minAmount.isFinite
  nonneg : 0 ≤ conf.minAmount.value
  digits : FracDigits conf.stockPrec conf.minAmount.value

/-- The stock a market taker may still trade. -/
def marketStockRoom : Side → MarketConf → Order → ℚ
  | .ask, _, taker => taker.left.value
  | .bid, conf, taker => taker.left.value * 10 ^ conf.moneyPrec

/-- The money a market taker may still pay; an ask is paid by its makers. -/
def marketMoneyRoom : Side → MarketConf → Order → ℚ
  | .ask, _, taker => taker.price.value * taker.left.value
  | .bid, _, taker => taker.left.value

section MarketOrders

variable [Libmpdec] [Settings] {digits : String → ℤ} {m : Market} {w : World}
  {held : ℕ → String → ℚ} {real : Bool} {now : Time} {fuel : ℕ} {userId : ℕ} {side : Side}
  {amount takerFee : Mpd} {source : String} {best : Order} {node : Ref}

omit [Settings] in
theorem marketRule_roomy (side : Side) : ∃ ok,
    (marketRule side).Fair ok (fun taker => taker.left.value) ∧
    (marketRule side).Roomy ok (marketStockRoom side) (marketMoneyRoom side) ∧
    ∀ {conf : MarketConf} {taker : Order}, StockTaker conf taker → ok conf taker := by
  cases side with
  | ask => exact ⟨_, marketAskRule_fair, marketAskRule_roomy, id⟩
  | bid => exact ⟨_, marketBidRule_fair, marketBidRule_roomy, StockTaker.toTakerSane⟩

/-- The product a market bid is tested against is the true one. -/
theorem marketRequire_exact (terms : MarketTerms m.toMarketConf amount takerFee)
    (least : side = .bid → m.toMarketConf.LeastOk) (room : Room digits m w)
    (sound : w.ledger.Sound) (resting : best.Resting m.toMarketConf)
    (covered : lacks w.ledger ⟨userId, .available, m.gives side⟩ amount = false)
    (enough : ¬ mpdCmp amount (marketRequire w m side best).1 < 0) :
    (marketRequire w m side best).2.ledger.exact = true := by
  cases side with
  | ask => exact room.exact
  | bid =>
      have least := least rfl
      have product := Libmpdec.mul_finite resting.priceFinite least.finite
      have rounds := Libmpdec.mul_rounds resting.priceFinite least.finite
      have nonneg := rounds.nonneg (mul_nonneg resting.pricePos.le least.nonneg)
      have grid : OnGrid (-(m.moneyPrec + m.stockPrec)) (best.price.value * m.minAmount.value) :=
        (resting.priceDigits.mul least.digits).onGrid
      change ¬ mpdCmp amount (mpdMul best.price m.minAmount) < 0 at enough
      rw [mpdCmp_lt_zero terms.amountFinite product, not_lt] at enough
      have le := (lacks_covers sound terms.amountFinite covered).trans (sound.holds_le_total _)
      have supply : 2 * w.ledger.total m.money < capacity (digits m.money) := room.supply .bid
      have below := capacity_anti (show m.moneyPrec + m.stockPrec ≤ digits m.money by
        linarith [room.covers.fee, terms.takerFee.digits.nonneg])
      change amount.value ≤ w.ledger.total m.money at le
      rw [marketRequire, World.observe_ledger, Ledger.exact_observe]
      have fine : m.moneyPrec + m.stockPrec ≤ -mpdEtiny := by
        apply fine_of_lt _ terms.amountDigits.onGrid terms.amountPos
        · linarith
        · linarith [resting.priceDigits.nonneg]
      refine ⟨room.exact, rounds.eq_of_small grid fine ?_⟩
      rw [abs_of_nonneg nonneg]
      linarith [terms.amountPos]

/-- The stock and the money of an admitted market order have room. -/
theorem market_room (terms : MarketTerms m.toMarketConf amount takerFee)
    (ok : m.toMarketConf.Ok) (room : Room digits m w) (sound : w.ledger.Sound)
    (moneyPrec : 0 ≤ m.moneyPrec)
    (covered : lacks w.ledger ⟨userId, .available, m.gives side⟩ amount = false) {o : Order}
    (left : o.left = amount) (price : o.price = mpdZero) :
    marketStockRoom side m.toMarketConf o < capacity (m.stockPrec + m.feePrec) ∧
      marketMoneyRoom side m.toMarketConf o + frozenSum m.money w.ledger.accounts <
        capacity (m.stockPrec + m.moneyPrec + m.feePrec) := by
  have le := lacks_covers sound terms.amountFinite covered
  have money : 2 * w.ledger.total m.money < capacity (digits m.money) := room.supply .bid
  have stock : 2 * w.ledger.total m.stock < capacity (digits m.stock) := room.supply .ask
  have moneyDigits := capacity_anti room.covers.fee
  have stockDigits := capacity_anti (ok.bidFeePrec.trans room.covers.stock)
  have frozen := frozenSum_le_total sound userId m.money
  have available := sound.holds_nonneg ⟨userId, .available, m.money⟩
  have frozenNonneg := frozenSum_nonneg m.money sound.accounts_nonneg
  have amountPos := terms.amountPos
  cases side with
  | ask =>
      have le := le.trans (sound.holds_le_total _)
      change amount.value ≤ w.ledger.total m.stock at le
      simp only [marketStockRoom, marketMoneyRoom, left, price, mpdZero_value, zero_mul, zero_add]
      constructor <;> linarith
  | bid =>
      change amount.value ≤ w.ledger.holds ⟨userId, .available, m.money⟩ at le
      have unit : (0 : ℚ) < 10 ^ m.moneyPrec := zpow_pos (by norm_num) _
      have shift := capacity_shift
        (add_nonneg terms.amountDigits.nonneg terms.takerFee.digits.nonneg) moneyPrec
      rw [show m.stockPrec + m.feePrec + m.moneyPrec = m.stockPrec + m.moneyPrec + m.feePrec by
        ring] at shift
      simp only [marketStockRoom, marketMoneyRoom, left]
      constructor
      · refine lt_of_lt_of_le ?_ shift
        apply mul_lt_mul_of_pos_right _ unit
        linarith
      · linarith

/-- An admitted market order starts its loop with room. -/
theorem marketStart_fitting (terms : MarketTerms m.toMarketConf amount takerFee)
    (ok : m.toMarketConf.Ok) (room : Room digits m w) (sound : w.ledger.Sound)
    (resting : best.Resting m.toMarketConf)
    (covered : lacks w.ledger ⟨userId, .available, m.gives side⟩ amount = false)
    (exact : (marketRequire w m side best).2.ledger.exact = true) :
    Fitting digits (marketStockRoom side) (marketMoneyRoom side) (marketRule side)
      (marketStart now m w best userId side amount takerFee source) := by
  have observed := marketRequire_observed w m side best
  have unfilled := newOrder_unfilled now m (marketRequire w m side best).2 .market userId side
    amount mpdZero takerFee mpdZero source
  obtain ⟨stock, money⟩ := market_room terms ok room sound resting.priceDigits.nonneg covered
    (o := newOrder now m (marketRequire w m side best).2 .market userId side amount mpdZero takerFee
      mpdZero source) rfl rfl
  refine ⟨exact, ?_, ?_, ?_, ?_, ?_, ?_, ?_⟩
  · intro side
    exact (congrArg (2 * ·) (observed.total (m.gives side))).trans_lt (room.supply side)
  · exact unfilled.tallied m.toMarketConf _
  · exact mpdZero_value.ge
  · apply terms.amountDigits.onGrid.mono
    change -(m.stockPrec + m.moneyPrec) ≤ -m.stockPrec
    linarith [resting.priceDigits.nonneg]
  · change mpdZero.value + _ < _
    rwa [mpdZero_value, zero_add]
  · change mpdZero.value + _ +
      frozenSum m.money (marketRequire w m side best).2.ledger.accounts < _
    rw [mpdZero_value, zero_add, observed.accounts]
    exact money
  · intro ref o rests
    refine room.spare ⟨?_, rests.2⟩
    rw [← observed.heap]
    exact rests.1

/-- A market order rounds nothing and keeps the room. -/
theorem marketOrder_roomKept {outcome : Outcome} (inv : MarketInv m w) (room : Room digits m w)
    (sound : w.ledger.Sound) (backed : Backed held m w)
    (heldNonneg : ∀ user asset, 0 ≤ held user asset)
    (terms : MarketTerms m.toMarketConf amount takerFee)
    (least : side = .bid → m.toMarketConf.LeastOk)
    (run : marketPutMarketOrder real now fuel m w userId side amount takerFee source =
      some outcome) : RoomKept m outcome.market w outcome.world := by
  rcases marketPutMarketOrder_cases run with
    ⟨_, _, rfl⟩ | ⟨covered, node, best, st', listed, live, enough, executed, rfl⟩
  · exact room.kept
  obtain ⟨ok, fair, roomy, takes⟩ := marketRule_roomy side
  have observed := marketRequire_observed w m side best
  have starts : Starts m w (marketStart now m w best userId side amount takerFee source) :=
    orderStart_starts observed (congrArg (· + 1) observed.orderIdStart)
  have resting : best.Resting m.toMarketConf := by
    obtain ⟨o, rests, _⟩ := inv.index.rests_of_mem listed
    obtain rfl := rests.eq live
    exact inv.resting rests
  have start : Trading (marketRule side) ok (fun taker => taker.left.value) held
      (marketStart now m w best userId side amount takerFee source) :=
    marketStart_trading best takes inv sound backed terms covered
  have exact := marketRequire_exact terms least room sound resting covered enough
  obtain ⟨fitting, totals⟩ := execute_fits fair roomy room.covers heldNonneg start
    (marketStart_fitting terms inv.ok room sound resting covered exact) executed
  have progress := (execute_trading fair heldNonneg start executed fitting.exact).2
  have conf : st'.market.toMarketConf = m.toMarketConf := progress.conf
  obtain ⟨first, second, world⟩ := finishMarket_world real st'
  refine ⟨?_, ?_, ?_, ?_⟩
  · rw [world, World.emit_ledger, World.emit_ledger]
    exact fitting.exact
  · have silent : st'.world.Silent (finishMarket real st').world :=
      (World.emit_silent _ real (fun _ _ => rfl) fun _ => rfl).trans
        (World.emit_silent _ real (fun _ _ => rfl) fun _ => rfl)
    exact silent.totals.trans (totals.trans observed.totals)
  · rw [world, World.emit_ledger, World.emit_ledger]
    exact (progress.orderPosts starts).total_le
  · intro ref o rests
    rw [world, World.emit_heap, World.emit_heap] at rests
    rw [← conf]
    exact fitting.makers rests

end MarketOrders

/-! ## Cancels -/

section Cancels

variable [Libmpdec] [Settings] {digits : String → ℤ} {m : Market} {w : World}
  {held : ℕ → String → ℚ} {ref : Ref} {order : Order}

/-- Releasing what an order has frozen rounds nothing. -/
theorem orderFinish_fits (real : Bool) (ok : m.toMarketConf.Ok) (room : Room digits m w)
    (index : BookInv m w.heap) (sound : w.ledger.Sound) (rests : m.Rests w.heap ref order)
    (resting : order.Resting m.toMarketConf) :
    (orderFinish real m w ref).2.2.ledger.exact = true := by
  obtain ⟨type, known⟩ := ok.known order.side
  have prec := room.covers.gives order.side
  have digits' := resting.frozen_digits ok
  rw [assetPrec_of_some known] at prec digits'
  have below := room.supply order.side
  have nonneg := assetSum_nonneg (m.gives order.side) sound.accounts_nonneg
  rw [← Ledger.total_eq_assetSum] at nonneg
  have gives : (unlinkBook m w order ref).gives order.side = m.gives order.side := by
    rw [unlinkBook_eq index rests, Market.setBook_toMarketConf]
  have released : (balanceUnfreeze w.ledger order.userId (m.gives order.side)
      order.freeze).2.exact = true := by
    refine (balanceMove_fits sound known prec resting.freezeFinite resting.freeze_pos.le ?_
      (by decide) ?_).trans room.exact
    · rw [resting.freeze]
      exact digits'.onGrid.mono (neg_le_neg prec)
    · linarith
  have removed (w' : World) (m' : Market) :
      (orderRemove real m' w' order ref).2.ledger = w'.ledger := by
    simp only [orderRemove, orderFree_ledger, World.emit_ledger]
  unfold orderFinish
  simp only [rests.1, gives]
  split
  · split
    · rwa [World.discard_ledger]
    · simp only [removed, World.discard_ledger]
      exact released
  · simp only [removed]
    exact room.exact

/-- A cancel rounds nothing and keeps the room. -/
theorem marketCancelOrder_roomKept (real : Bool) (inv : MarketInv m w) (room : Room digits m w)
    (sound : w.ledger.Sound) (backed : Backed held m w)
    (heldNonneg : ∀ user asset, 0 ≤ held user asset) (rests : m.Rests w.heap ref order) :
    RoomKept m (marketCancelOrder real m w ref order).market w
      (marketCancelOrder real m w ref order).world := by
  obtain ⟨first, emitted⟩ : ∃ first, first = w.emit real (.orderMessage .finish order m.stock
    m.money) := ⟨_, rfl⟩
  have heap : first.heap = w.heap := by rw [emitted, World.emit_heap]
  have ledger : first.ledger = w.ledger := by rw [emitted, World.emit_ledger]
  have rests' : m.Rests first.heap ref order := heap ▸ rests
  have room' : Room digits m first := by
    refine ⟨ledger ▸ room.exact, room.covers, ?_, ?_⟩
    · intro side
      rw [ledger]
      exact room.supply side
    · intro x o found
      exact room.spare (heap ▸ found)
  have exact : (marketCancelOrder real m w ref order).world.ledger.exact = true := by
    unfold marketCancelOrder
    simp only [← emitted]
    exact orderFinish_fits real inv.ok room' (heap ▸ inv.index.toBookInv) (ledger ▸ sound) rests'
      (inv.resting rests)
  have finished := orderFinish_finished real (heap ▸ inv.index.toBookInv) rests'
  have accounts := (marketCancelOrder_step real inv sound backed heldNonneg rests exact).2.2.2
  refine ⟨exact, ?_, ?_, ?_⟩
  · have silent : w.Silent (marketCancelOrder real m w ref order).world :=
      (World.emit_silent _ real (fun _ _ => rfl) fun _ => rfl).trans
        (orderFinish_silent real _ _ _)
    exact silent.totals
  · intro asset
    rw [Ledger.total_eq_assetSum, Ledger.total_eq_assetSum, accounts, map_add, map_sub,
      assetSum_single, assetSum_single, sub_self, add_zero]
  · intro x o now
    have world : (marketCancelOrder real m w ref order).world =
        (orderFinish real m first ref).2.2 := by
      rw [emitted]
      rfl
    have market : (marketCancelOrder real m w ref order).market =
        (orderFinish real m first ref).2.1 := by
      rw [emitted]
      rfl
    obtain ⟨live, mem⟩ := now
    rw [world] at live
    rw [market, finished.book, inv.index.toBookInv.mem_erase] at mem
    rw [finished.heap x mem.1, heap] at live
    exact room.spare ⟨live, mem.2⟩

end Cancels

end ViabtcServer.MatchEngine
