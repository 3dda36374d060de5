import ViabtcServer.MatchEngine.Magnitude

/-!
# Matching without rounding

What an order has accumulated, with what may still come, stays below the
capacity of the context; so do the money and stock of a market. Under these
bounds no operation of a matching loop rounds.
-/

namespace ViabtcServer.MatchEngine

open Decimal Container

/-! ## What an order accumulates -/

/-- The digits of the fee of an order of `side`. -/
def MarketConf.feeDigits (conf : MarketConf) : Side → ℤ
  | .ask => conf.stockPrec + conf.moneyPrec + conf.feePrec
  | .bid => conf.stockPrec + conf.feePrec

/-- What an order of `side` has received, before fees. -/
def Order.received (o : Order) : Side → Mpd
  | .ask => o.dealMoney
  | .bid => o.dealStock

/-- The sums of an order's fills have the digits of their summands, and its fees
are at most what it received. -/
structure Order.Tallied (conf : MarketConf) (side : Side) (o : Order) : Prop where
  stockFinite : o.dealStock.isFinite
  moneyFinite : o.dealMoney.isFinite
  feeFinite : o.dealFee.isFinite
  stockGrid : OnGrid (-conf.stockPrec) o.dealStock.value
  moneyGrid : OnGrid (-(conf.stockPrec + conf.moneyPrec)) o.dealMoney.value
  feeGrid : OnGrid (-conf.feeDigits side) o.dealFee.value
  stockNonneg : 0 ≤ o.dealStock.value
  moneyNonneg : 0 ≤ o.dealMoney.value
  feeNonneg : 0 ≤ o.dealFee.value
  fee_le : o.dealFee.value ≤ (o.received side).value

/-- A resting order has room for what is left of it. -/
structure Order.Spare (conf : MarketConf) (o : Order) : Prop
    extends Order.Tallied conf o.side o where
  stock : o.dealStock.value + o.left.value < capacity (conf.stockPrec + conf.feePrec)
  money : o.dealMoney.value + o.price.value * o.left.value <
    capacity (conf.stockPrec + conf.moneyPrec + conf.feePrec)

/-- The digits of a fill. -/
structure Fill.Fine (conf : MarketConf) (f : Fill) : Prop where
  amount : OnGrid (-conf.stockPrec) f.amount.value
  deal : OnGrid (-(conf.stockPrec + conf.moneyPrec)) f.deal.value
  fee : ∀ side, OnGrid (-conf.feeDigits side) (f.fee side).value

section Tally

variable [Libmpdec] [Settings] {conf : MarketConf} {o : Order} {f : Fill} {side : Side}
  {now : Time} {spent : Mpd} {w : World}

/-- With room for a fill, its amount, its money and its fee are added without
rounding. -/
theorem Order.Tallied.sums (tallied : o.Tallied conf side) (ok : f.Ok conf) (fine : f.Fine conf)
    (feePrec : 0 ≤ conf.feePrec)
    (stock : o.dealStock.value + f.amount.value < capacity (conf.stockPrec + conf.feePrec))
    (money : o.dealMoney.value + f.deal.value <
      capacity (conf.stockPrec + conf.moneyPrec + conf.feePrec)) :
    (mpdAdd o.dealStock f.amount).value = o.dealStock.value + f.amount.value ∧
      (mpdAdd o.dealMoney f.deal).value = o.dealMoney.value + f.deal.value ∧
      (mpdAdd o.dealFee (f.fee side)).value = o.dealFee.value + (f.fee side).value := by
  have amountPos : 0 < f.amount.value := ok.paysPos .ask
  have dealPos : 0 < f.deal.value := ok.paysPos .bid
  have feeNonneg := ok.feeNonneg side
  refine ⟨?_, ?_, ?_⟩
  · apply mpdAdd_fits tallied.stockFinite (ok.paysFinite .ask)
    apply InCapacity.of_nonneg (tallied.stockGrid.add fine.amount)
      (add_nonneg tallied.stockNonneg amountPos.le)
    exact stock.trans_le (capacity_anti (by linarith))
  · apply mpdAdd_fits tallied.moneyFinite (ok.paysFinite .bid)
    apply InCapacity.of_nonneg (tallied.moneyGrid.add fine.deal)
      (add_nonneg tallied.moneyNonneg dealPos.le)
    exact money.trans_le (capacity_anti (by linarith))
  · apply mpdAdd_fits tallied.feeFinite (ok.feeFinite side)
    apply InCapacity.of_nonneg (tallied.feeGrid.add (fine.fee side))
      (add_nonneg tallied.feeNonneg feeNonneg)
    have fee_le := ok.fee_le side
    have own_le := tallied.fee_le
    cases side with
    | ask =>
        change o.dealFee.value ≤ o.dealMoney.value at own_le
        change f.askFee.value ≤ f.deal.value at fee_le
        exact lt_of_le_of_lt (add_le_add own_le fee_le) money
    | bid =>
        change o.dealFee.value ≤ o.dealStock.value at own_le
        change f.bidFee.value ≤ f.amount.value at fee_le
        exact lt_of_le_of_lt (add_le_add own_le fee_le) stock

/-- Neither does the record of the fill round, and it keeps the sums in order. -/
theorem Order.Tallied.record (tallied : o.Tallied conf side) (ok : f.Ok conf) (fine : f.Fine conf)
    (feePrec : 0 ≤ conf.feePrec)
    (stock : o.dealStock.value + f.amount.value < capacity (conf.stockPrec + conf.feePrec))
    (money : o.dealMoney.value + f.deal.value <
      capacity (conf.stockPrec + conf.moneyPrec + conf.feePrec))
    (now : Time) (spent : Mpd) : (o.record now side f spent).Tallied conf side := by
  have amountPos : 0 < f.amount.value := ok.paysPos .ask
  have dealPos : 0 < f.deal.value := ok.paysPos .bid
  obtain ⟨stockSum, moneySum, feeSum⟩ := tallied.sums ok fine feePrec stock money
  refine ⟨?_, ?_, ?_, ?_, ?_, ?_, ?_, ?_, ?_, ?_⟩
  · exact Libmpdec.add_finite tallied.stockFinite (ok.paysFinite .ask)
  · exact Libmpdec.add_finite tallied.moneyFinite (ok.paysFinite .bid)
  · exact Libmpdec.add_finite tallied.feeFinite (ok.feeFinite side)
  · exact stockSum ▸ tallied.stockGrid.add fine.amount
  · exact moneySum ▸ tallied.moneyGrid.add fine.deal
  · exact feeSum ▸ tallied.feeGrid.add (fine.fee side)
  · exact stockSum ▸ add_nonneg tallied.stockNonneg amountPos.le
  · exact moneySum ▸ add_nonneg tallied.moneyNonneg dealPos.le
  · exact feeSum ▸ add_nonneg tallied.feeNonneg (ok.feeNonneg side)
  · have both := add_le_add tallied.fee_le (ok.fee_le side)
    change (mpdAdd o.dealFee (f.fee side)).value ≤ _
    rw [feeSum]
    cases side with
    | ask => exact both.trans moneySum.ge
    | bid => exact both.trans stockSum.ge

theorem Order.Tallied.observed (tallied : o.Tallied conf side) (ok : f.Ok conf)
    (fine : f.Fine conf) (feePrec : 0 ≤ conf.feePrec)
    (stock : o.dealStock.value + f.amount.value < capacity (conf.stockPrec + conf.feePrec))
    (money : o.dealMoney.value + f.deal.value <
      capacity (conf.stockPrec + conf.moneyPrec + conf.feePrec))
    (left : (mpdSub o.left spent).value = o.left.value - spent.value)
    (exact : w.ledger.exact = true) :
    (w.observeRecord o side f spent).ledger.exact = true := by
  obtain ⟨stockSum, moneySum, feeSum⟩ := tallied.sums ok fine feePrec stock money
  simp only [World.observeRecord, World.observe_ledger, Ledger.exact_observe]
  exact ⟨⟨⟨⟨exact, left⟩, stockSum⟩, moneySum⟩, feeSum⟩

end Tally

/-! ## The products of a fill -/

section Products

variable [Libmpdec] {conf : MarketConf} {side : Side} {taker maker : Order} {amount : Mpd}
  {dealId : ℕ} {w : World}

/-- A fill that stays below the capacity is computed without rounding. -/
theorem makeFill_fits (takerFee : FeeOk conf taker.takerFee) (resting : maker.Resting conf)
    (finite : amount.isFinite) (pos : 0 < amount.value)
    (digits : FracDigits conf.stockPrec amount.value)
    (stock : amount.value < capacity (conf.stockPrec + conf.feePrec))
    (money : maker.price.value * amount.value <
      capacity (conf.stockPrec + conf.moneyPrec + conf.feePrec))
    (exact : w.ledger.exact = true) :
    (w.observeFill (makeFill side taker maker amount dealId)
        (feeRates side taker maker)).ledger.exact = true ∧
      (makeFill side taker maker amount dealId).Fine conf := by
  obtain ⟨askRate, bidRate⟩ :
      FeeOk conf (feeRates side taker maker).1 ∧ FeeOk conf (feeRates side taker maker).2 := by
    cases side
    · exact ⟨takerFee, resting.makerFee⟩
    · exact ⟨resting.makerFee, takerFee⟩
  have feePrec := takerFee.digits.nonneg
  have dealPos := mul_pos resting.pricePos pos
  have dealFinite := Libmpdec.mul_finite resting.priceFinite finite
  have dealGrid :
      OnGrid (-(conf.stockPrec + conf.moneyPrec)) (maker.price.value * amount.value) := by
    have grid := resting.priceDigits.onGrid.mul digits.onGrid
    rwa [← neg_add, add_comm] at grid
  have deal : (mpdMul maker.price amount).value = maker.price.value * amount.value := by
    apply mpdMul_fits resting.priceFinite finite
    exact InCapacity.of_nonneg dealGrid dealPos.le (money.trans_le (capacity_anti (by linarith)))
  have askGrid : OnGrid (-(conf.stockPrec + conf.moneyPrec + conf.feePrec))
      ((mpdMul maker.price amount).value * (feeRates side taker maker).1.value) := by
    rw [deal]
    have grid := dealGrid.mul askRate.digits.onGrid
    rwa [← neg_add] at grid
  have bidGrid : OnGrid (-(conf.stockPrec + conf.feePrec))
      (amount.value * (feeRates side taker maker).2.value) := by
    have grid := digits.onGrid.mul bidRate.digits.onGrid
    rwa [← neg_add] at grid
  have askFee : (mpdMul (mpdMul maker.price amount) (feeRates side taker maker).1).value =
      (mpdMul maker.price amount).value * (feeRates side taker maker).1.value := by
    apply mpdMul_fits dealFinite askRate.finite
    apply InCapacity.of_nonneg askGrid
    · rw [deal]
      exact mul_nonneg dealPos.le askRate.nonneg
    · rw [deal]
      exact lt_of_le_of_lt (mul_le_of_le_one_right dealPos.le askRate.lt_one.le) money
  have bidFee : (mpdMul amount (feeRates side taker maker).2).value =
      amount.value * (feeRates side taker maker).2.value := by
    apply mpdMul_fits finite bidRate.finite
    apply InCapacity.of_nonneg bidGrid (mul_nonneg pos.le bidRate.nonneg)
    exact lt_of_le_of_lt (mul_le_of_le_one_right pos.le bidRate.lt_one.le) stock
  have fees : (makeFill side taker maker amount dealId).askFee =
        mpdMul (mpdMul maker.price amount) (feeRates side taker maker).1 ∧
      (makeFill side taker maker amount dealId).bidFee =
        mpdMul amount (feeRates side taker maker).2 := by
    cases side <;> exact ⟨rfl, rfl⟩
  refine ⟨?_, ?_, ?_, ?_⟩
  · simp only [World.observeFill, World.observe_ledger, Ledger.exact_observe, makeFill_deal,
      makeFill_price, makeFill_amount, fees.1, fees.2]
    exact ⟨⟨⟨exact, deal⟩, askFee⟩, bidFee⟩
  · rw [makeFill_amount]
    exact digits.onGrid
  · rw [makeFill_deal, deal]
    exact dealGrid
  · rintro (_ | _)
    · change OnGrid _ (makeFill side taker maker amount dealId).askFee.value
      rw [fees.1, askFee]
      exact askGrid
    · change OnGrid _ (makeFill side taker maker amount dealId).bidFee.value
      rw [fees.2, bidFee]
      exact bidGrid

end Products

/-! ## What the rules leave room for -/

/-- How the room of a taker shrinks: by the stock of each fill and, for a bid, by
its money. -/
structure MatchRule.Roomy [Libmpdec] (rule : MatchRule) (ok : MarketConf → Order → Prop)
    (stockRoom moneyRoom : MarketConf → Order → ℚ) : Prop where
  nonneg : ∀ {conf taker}, ok conf taker → 0 ≤ taker.price.value →
    0 ≤ stockRoom conf taker ∧ 0 ≤ moneyRoom conf taker
  step : ∀ {conf taker maker} (taker' : Order) {f : Fill}, 0 ≤ taker.price.value →
    maker.Resting conf → rule.stops taker maker = false → ok conf taker → 0 < f.amount.value →
    f.deal.value = maker.price.value * f.amount.value →
    taker'.left.value = taker.left.value - (rule.spends f).value → taker'.price = taker.price →
    f.amount.value + stockRoom conf taker' ≤ stockRoom conf taker ∧
      (if rule.side = .bid then f.deal.value else 0) + moneyRoom conf taker' ≤
        moneyRoom conf taker
  left : ∀ {conf taker} {f : Fill}, ok conf taker → 0 ≤ conf.moneyPrec → 0 ≤ conf.feePrec →
    OnGrid (-(conf.stockPrec + conf.moneyPrec)) taker.left.value →
    stockRoom conf taker < capacity (conf.stockPrec + conf.feePrec) →
    moneyRoom conf taker < capacity (conf.stockPrec + conf.moneyPrec + conf.feePrec) →
    FracDigits conf.stockPrec f.amount.value →
    OnGrid (-(conf.stockPrec + conf.moneyPrec)) f.deal.value → 0 ≤ (rule.spends f).value →
    (rule.spends f).value ≤ taker.left.value →
    SigDigits mpdCtx (taker.left.value - (rule.spends f).value) ∧
      OnGrid (-(conf.stockPrec + conf.moneyPrec)) (taker.left.value - (rule.spends f).value)
  volume : ∀ {fuel st maker w choice}, ok st.market.toMarketConf st.taker →
    maker.Resting st.market.toMarketConf → 0 ≤ st.market.feePrec →
    moneyRoom st.market.toMarketConf st.taker <
      capacity (st.market.stockPrec + st.market.moneyPrec + st.market.feePrec) →
    rule.volume fuel st maker = some (w, choice) → st.world.ledger.exact = true →
    w.ledger.exact = true

section Rules

variable [Libmpdec] {rule : MatchRule} {ok : MarketConf → Order → Prop}

/-- A rest of stock is room for stock, and at the taker's own price for money. -/
theorem roomy_of_rest (volume : rule.volume = restVolume) (spends : rule.spends = Fill.amount)
    (stock : ∀ {conf taker}, ok conf taker → StockTaker conf taker)
    (price : ∀ {conf taker maker}, rule.side = .bid → ok conf taker → maker.Resting conf →
      rule.stops taker maker = false → maker.price.value ≤ taker.price.value) :
    rule.Roomy ok (fun _ taker => taker.left.value)
      (fun _ taker => taker.price.value * taker.left.value) where
  nonneg taker priceNonneg := ⟨(stock taker).nonneg, mul_nonneg priceNonneg (stock taker).nonneg⟩
  step {conf taker maker} taker' {f} priceNonneg resting acceptable taker_ pos deal left same := by
    rw [spends] at left
    rw [left, same]
    constructor
    · linarith
    · split
      · rename_i bid
        have notAbove := price bid taker_ resting acceptable
        rw [deal]
        nlinarith [mul_le_mul_of_nonneg_right notAbove pos.le]
      · rw [zero_add]
        apply mul_le_mul_of_nonneg_left _ priceNonneg
        linarith
  left {conf taker f} taker_ moneyPrec feePrec grid stockSmall _ digits _ nonneg le := by
    rw [spends] at nonneg le ⊢
    have rest := ((stock taker_).digits.sub digits).onGrid
    constructor
    · apply InCapacity.sigDigits (d := conf.stockPrec)
      apply InCapacity.of_nonneg rest (sub_nonneg.mpr le)
      have below := stockSmall.trans_le
        (capacity_anti (show conf.stockPrec ≤ conf.stockPrec + conf.feePrec by linarith))
      linarith
    · exact rest.mono (by linarith)
  volume {fuel st maker w choice} _ _ _ _ chosen exact := by
    rw [volume, restVolume] at chosen
    obtain ⟨rfl, _⟩ := Prod.mk.inj (Option.some.inj chosen)
    exact exact

theorem limitAskRule_roomy : limitAskRule.Roomy StockTaker (fun _ taker => taker.left.value)
    (fun _ taker => taker.price.value * taker.left.value) :=
  roomy_of_rest rfl rfl id nofun

theorem marketAskRule_roomy : marketAskRule.Roomy StockTaker (fun _ taker => taker.left.value)
    (fun _ taker => taker.price.value * taker.left.value) :=
  roomy_of_rest rfl rfl id nofun

theorem limitBidRule_roomy : limitBidRule.Roomy BidTaker (fun _ taker => taker.left.value)
    (fun _ taker => taker.price.value * taker.left.value) := by
  apply roomy_of_rest rfl rfl BidTaker.toStockTaker
  intro conf taker maker _ ok resting acceptable
  exact limitBidRule_price ok.priceFinite resting.priceFinite acceptable

/-- A rest of money is room for money; it buys at most what it buys at the least
price. -/
theorem marketBidRule_roomy : marketBidRule.Roomy (fun _ => TakerSane)
    (fun conf taker => taker.left.value * 10 ^ conf.moneyPrec)
    (fun _ taker => taker.left.value) where
  nonneg taker _ := ⟨mul_nonneg taker.nonneg (zpow_pos (by norm_num) _).le, taker.nonneg⟩
  step {conf taker maker} taker' {f} _ resting _ _ pos deal left _ := by
    have spent : taker'.left.value = taker.left.value - f.deal.value := left
    have unit : (0 : ℚ) < 10 ^ conf.moneyPrec := zpow_pos (by norm_num) _
    have least : 1 ≤ maker.price.value * 10 ^ conf.moneyPrec := by
      have unit_le := resting.priceDigits.onGrid.unit_le resting.pricePos
      rwa [zpow_neg, inv_le_iff_one_le_mul₀ unit] at unit_le
    rw [spent]
    constructor
    · rw [deal]
      nlinarith [mul_le_mul_of_nonneg_right least pos.le]
    · rw [if_pos (show marketBidRule.side = .bid from rfl)]
      linarith
  left {conf taker f} _ _ feePrec grid _ moneySmall _ deal nonneg le := by
    have rest := grid.sub deal
    refine ⟨?_, rest⟩
    apply InCapacity.sigDigits (d := conf.stockPrec + conf.moneyPrec)
    apply InCapacity.of_nonneg rest (sub_nonneg.mpr le)
    have below := moneySmall.trans_le (capacity_anti
      (show conf.stockPrec + conf.moneyPrec ≤ conf.stockPrec + conf.moneyPrec + conf.feePrec by
        linarith))
    change 0 ≤ f.deal.value at nonneg
    change taker.left.value - f.deal.value < _
    linarith
  volume {fuel st maker w choice} taker resting feePrec small chosen exact := by
    obtain ⟨finite, nonneg, le⟩ := quotient_spec st.market.stockPrec taker resting.sane
    cases fuel with
    | zero => simp [marketBidRule, moneyVolume, lowerAmount] at chosen
    | succ fuel =>
        have stops := lowerAmount_stops st.market.stockPrec fuel st.world taker.finite
          resting.priceFinite finite resting.pricePos nonneg le
        have grid : OnGrid (-(st.market.stockPrec + st.market.moneyPrec))
            ((mpdRescale (mpdDiv st.taker.left maker.price) (-st.market.stockPrec)).value *
              maker.price.value) := by
          have quotient : OnGrid (-st.market.stockPrec)
              (mpdRescale (mpdDiv st.taker.left maker.price) (-st.market.stockPrec)).value := by
            rw [Libmpdec.rescale_value _ (Libmpdec.div_finite taker.finite resting.priceFinite
              resting.pricePos.ne')]
            exact truncateAt_onGrid _ _
          have product := quotient.mul resting.priceDigits.onGrid
          rwa [← neg_add] at product
        have value := mpdMul_fits finite resting.priceFinite (InCapacity.of_nonneg grid
          (mul_nonneg nonneg resting.pricePos.le) (lt_of_le_of_lt le (small.trans_le
            (capacity_anti (by linarith)))))
        simp only [marketBidRule, moneyVolume, stops] at chosen
        have same : w = st.world.observe
            (mpdMul (mpdRescale (mpdDiv st.taker.left maker.price) (-st.market.stockPrec))
              maker.price)
            ((mpdRescale (mpdDiv st.taker.left maker.price) (-st.market.stockPrec)).value *
              maker.price.value) := by
          split at chosen
          all_goals split at chosen
          all_goals exact (Prod.mk.inj (Option.some.inj chosen)).1.symm
        rw [same, World.observe_ledger, Ledger.exact_observe]
        exact ⟨exact, value⟩

end Rules

/-! ## The supply under a fill -/

section Supply

variable [Settings] {conf : MarketConf} {f : Fill}

/-- A fill takes the two fees out of the supply. -/
theorem Fill.Ok.assetSum_posted_le (ok : f.Ok conf) (asset : String) :
    assetSum asset (f.posted conf) ≤ 0 := by
  have fee (side : Side) : 0 ≤ raiseAt (-assetPrec (conf.gets side)) (f.fee side).value :=
    (ok.feeNonneg side).trans (le_raiseAt _ _)
  have taker := fee f.takerSide
  have maker := fee f.takerSide.opposite
  unfold posted
  rw [map_add, assetSum_settlement, assetSum_settlement]
  simp only [conf.gets_eq, f.receives_eq, Side.opposite_opposite] at taker maker ⊢
  split <;> split <;> linarith

/-- What a settlement adds to the supply of what is received. -/
theorem Fill.Ok.assetSum_settlement_le (ok : f.Ok conf) (user : ℕ) (side : Side)
    (source : BalanceType) (asset : String) :
    assetSum asset (settlement conf user side source f) ≤
      (if conf.gets side = asset then (f.receives side).value else 0) -
        if conf.gives side = asset then (f.pays side).value else 0 := by
  have fee : 0 ≤ raiseAt (-assetPrec (conf.gets side)) (f.fee side).value :=
    (ok.feeNonneg side).trans (le_raiseAt _ _)
  rw [assetSum_settlement]
  split <;> split <;> linarith

/-- An ask is paid from frozen money. -/
theorem Fill.Ok.frozenSum_posted_le (ok : f.Ok conf) :
    frozenSum conf.money (f.posted conf) ≤
      -(if f.takerSide = .ask then f.deal.value else 0) := by
  unfold posted settlement
  simp only [map_add, frozenSum_available, frozenSum_freeze, zero_add, add_zero]
  have paysPos := ok.paysPos f.takerSide.opposite
  by_cases ask : f.takerSide = .ask
  · have gives : conf.gives f.takerSide.opposite = conf.money := by rw [ask]; rfl
    have pays : f.pays f.takerSide.opposite = f.deal := by rw [ask]; rfl
    rw [if_pos ask, if_pos gives, pays]
  · rw [if_neg ask, neg_zero]
    split
    · linarith
    · exact le_rfl

variable [Libmpdec] {real : Bool} {m : Market} {w : World} {node : Ref} {maker : Order}

/-- Closing a maker makes no balance call: what is used up froze nothing more. -/
theorem closeMaker_ledger (real : Bool) (inv : IndexInv m w.heap)
    (rests : m.Rests w.heap node maker) (finite : maker.freeze.isFinite)
    (zero : mpdCmp maker.left mpdZero = 0 → maker.freeze.value ≤ 0) :
    (closeMaker real m w node maker).2.ledger = w.ledger := by
  unfold closeMaker
  split
  · rename_i spent
    have announced := World.emit_heap w real (.orderMessage .finish maker m.stock m.money)
    obtain ⟨m', w', finish, ledger, _⟩ := orderFinish_released real (announced.symm ▸ inv)
      (announced.symm ▸ rests) finite (zero spent)
    simp only [finish, ledger, World.emit_ledger]
  · simp only [World.emit_ledger]

end Supply

/-! ## The invariant of a loop -/

/-- Nothing has rounded, and there is room for what a loop may still do. -/
structure Fitting (digits : String → ℤ)
    (stockRoom moneyRoom : MarketConf → Order → ℚ) (rule : MatchRule) (st : LoopState) : Prop where
  exact : st.world.ledger.exact = true
  supply : ∀ side, 2 * st.world.ledger.total (st.market.gives side) <
    capacity (digits (st.market.gives side))
  tallied : st.taker.Tallied st.market.toMarketConf rule.side
  priceNonneg : 0 ≤ st.taker.price.value
  leftGrid : OnGrid (-(st.market.stockPrec + st.market.moneyPrec)) st.taker.left.value
  stock : st.taker.dealStock.value + stockRoom st.market.toMarketConf st.taker <
    capacity (st.market.stockPrec + st.market.feePrec)
  money : st.taker.dealMoney.value + moneyRoom st.market.toMarketConf st.taker +
      frozenSum st.market.money st.world.ledger.accounts <
    capacity (st.market.stockPrec + st.market.moneyPrec + st.market.feePrec)
  makers : ∀ {ref o}, st.market.Rests st.world.heap ref o → o.Spare st.market.toMarketConf

/-- How a fill shrinks the room of its taker. -/
structure Shrinks (conf : MarketConf) (stockRoom moneyRoom : MarketConf → Order → ℚ)
    (taker taker' : Order) (side : Side) (f : Fill) : Prop where
  stock : f.amount.value + stockRoom conf taker' ≤ stockRoom conf taker
  money : (if side = .bid then f.deal.value else 0) + moneyRoom conf taker' ≤ moneyRoom conf taker
  stockNonneg : 0 ≤ stockRoom conf taker'
  moneyNonneg : 0 ≤ moneyRoom conf taker'

section Step

variable [Libmpdec] [Settings] {rule : MatchRule} {ok : MarketConf → Order → Prop}
  {need : Order → ℚ} {stockRoom moneyRoom : MarketConf → Order → ℚ} {held : ℕ → String → ℚ}
  {digits : String → ℤ} {st st' : LoopState} {node : Ref} {maker : Order} {real : Bool}
  {now : Time} {fuel : ℕ} {w : World} {amount : Mpd}

omit [Libmpdec] [Settings] in
/-- What is left of a maker bounds the stock and the money of a fill. -/
theorem Order.Spare.covers {conf : MarketConf} (spare : maker.Spare conf)
    (resting : maker.Resting conf) (le : amount.value ≤ maker.left.value) :
    maker.dealStock.value + amount.value < capacity (conf.stockPrec + conf.feePrec) ∧
      maker.dealMoney.value + maker.price.value * amount.value <
        capacity (conf.stockPrec + conf.moneyPrec + conf.feePrec) := by
  have money := mul_le_mul_of_nonneg_left le resting.pricePos.le
  constructor
  · linarith [spare.stock]
  · linarith [spare.money]

omit [Libmpdec] in
theorem Fitting.moneyRoom_lt (fitting : Fitting digits stockRoom moneyRoom rule st)
    (sound : st.world.ledger.Sound) : moneyRoom st.market.toMarketConf st.taker <
      capacity (st.market.stockPrec + st.market.moneyPrec + st.market.feePrec) := by
  have frozenNonneg := frozenSum_nonneg st.market.money sound.accounts_nonneg
  linarith [fitting.money, fitting.tallied.moneyNonneg]

/-- The products of the next fill do not round. -/
theorem Fitting.opens (real : Bool) (now : Time) (fair : rule.Fair ok need)
    (roomy : rule.Roomy ok stockRoom moneyRoom) (trading : Trading rule ok need held st)
    (fitting : Fitting digits stockRoom moneyRoom rule st) (meets : Meets rule st node maker)
    (chosen : rule.volume fuel st maker = some (w, some amount)) :
    (openedWorld real now rule { st with world := w } maker amount).ledger.exact = true ∧
      (LoopState.fill { st with world := w } rule maker amount).Fine st.market.toMarketConf := by
  have takerSane := fair.taker trading.taker
  have resting := trading.resting meets.rests
  have spare := fitting.makers meets.rests
  obtain ⟨finite, pos, le⟩ := fair.chooses takerSane resting.sane meets.unfinished chosen
  have amountDigits := fair.digits trading.taker resting chosen
  obtain ⟨stock, money⟩ := spare.covers resting le
  have wExact := roomy.volume trading.taker resting trading.takerFee.digits.nonneg
    (fitting.moneyRoom_lt trading.sound) chosen fitting.exact
  rw [openedWorld_ledger]
  exact makeFill_fits trading.takerFee resting finite pos amountDigits
    (by linarith [spare.stockNonneg]) (by linarith [spare.moneyNonneg]) wExact

/-- Neither does what is left of the taker. -/
theorem Fitting.leaves (fair : rule.Fair ok need)
    (roomy : rule.Roomy ok stockRoom moneyRoom) (trading : Trading rule ok need held st)
    (fitting : Fitting digits stockRoom moneyRoom rule st) (meets : Meets rule st node maker)
    (chosen : rule.volume fuel st maker = some (w, some amount)) :
    (mpdSub st.taker.left
        (rule.spends (LoopState.fill { st with world := w } rule maker amount))).value =
      st.taker.left.value -
        (rule.spends (LoopState.fill { st with world := w } rule maker amount)).value ∧
    OnGrid (-(st.market.stockPrec + st.market.moneyPrec)) (st.taker.left.value -
      (rule.spends (LoopState.fill { st with world := w } rule maker amount)).value) := by
  have takerSane := fair.taker trading.taker
  have resting := trading.resting meets.rests
  have fine := (fitting.opens true 0 fair roomy trading meets chosen).2
  obtain ⟨spentFinite, nonneg, le⟩ := fair.spends takerSane resting.sane meets.unfinished chosen
    (f := LoopState.fill { st with world := w } rule maker amount) makeFill_amount makeFill_deal
  have amountDigits := fair.digits trading.taker resting chosen
  have left := roomy.left (f := LoopState.fill { st with world := w } rule maker amount)
    trading.taker resting.priceDigits.nonneg trading.takerFee.digits.nonneg fitting.leftGrid
    (by linarith [fitting.stock, fitting.tallied.stockNonneg])
    (fitting.moneyRoom_lt trading.sound)
    (by rw [LoopState.fill, makeFill_amount]; exact amountDigits) fine.deal nonneg le
  exact ⟨(mpdSub_exact_iff takerSane.finite spentFinite).mpr left.1, left.2⟩

/-- The fill can be paid for, and shrinks the room of its taker. -/
theorem Fitting.payable (real : Bool) (now : Time) (fair : rule.Fair ok need)
    (roomy : rule.Roomy ok stockRoom moneyRoom) (heldNonneg : ∀ user asset, 0 ≤ held user asset)
    (trading : Trading rule ok need held st) (fitting : Fitting digits stockRoom moneyRoom rule st)
    (meets : Meets rule st node maker)
    (chosen : rule.volume fuel st maker = some (w, some amount)) :
    Payable { st with world := w } rule maker amount ∧
      Shrinks st.market.toMarketConf stockRoom moneyRoom st.taker
        (LoopState.takerAfter { st with world := w } now rule maker amount) rule.side
        (LoopState.fill { st with world := w } rule maker amount) := by
  have opened := (fitting.opens real now fair roomy trading meets chosen).1
  have left := (fitting.leaves fair roomy trading meets chosen).1
  obtain ⟨pay, _, _, ok', _⟩ := trading.payable fair heldNonneg meets chosen opened left
  have deal := (pay.fill_ok opened).2
  have rooms := roomy.nonneg ok' fitting.priceNonneg
  have amountEq : (LoopState.fill { st with world := w } rule maker amount).amount = amount :=
    makeFill_amount
  have dealEq : (LoopState.fill { st with world := w } rule maker amount).deal =
      mpdMul maker.price amount := makeFill_deal
  obtain ⟨stock, money⟩ := roomy.step
    (LoopState.takerAfter { st with world := w } now rule maker amount)
    (f := LoopState.fill { st with world := w } rule maker amount) fitting.priceNonneg pay.resting
    meets.acceptable trading.taker (by rw [amountEq]; exact pay.pos)
    (by rw [dealEq, amountEq, deal])
    left rfl
  exact ⟨pay, stock, money, rooms.1, rooms.2⟩

/-- A taker has room for the stock and the money of its next fill. -/
theorem Fitting.taker_covers (real : Bool) (now : Time) (fair : rule.Fair ok need)
    (roomy : rule.Roomy ok stockRoom moneyRoom) (heldNonneg : ∀ user asset, 0 ≤ held user asset)
    (trading : Trading rule ok need held st) (fitting : Fitting digits stockRoom moneyRoom rule st)
    (meets : Meets rule st node maker)
    (chosen : rule.volume fuel st maker = some (w, some amount)) :
    st.taker.dealStock.value +
          (LoopState.fill { st with world := w } rule maker amount).amount.value <
        capacity (st.market.stockPrec + st.market.feePrec) ∧
      st.taker.dealMoney.value +
          (LoopState.fill { st with world := w } rule maker amount).deal.value <
        capacity (st.market.stockPrec + st.market.moneyPrec + st.market.feePrec) := by
  have opened := (fitting.opens real now fair roomy trading meets chosen).1
  obtain ⟨pay, shrinks⟩ := fitting.payable real now fair roomy heldNonneg trading meets chosen
  have observed := fair.observes chosen
  have frozenNonneg := frozenSum_nonneg st.market.money trading.sound.accounts_nonneg
  constructor
  · linarith [fitting.stock, shrinks.stock, shrinks.stockNonneg]
  · have money := fitting.money
    have shrunk := shrinks.money
    have roomNonneg := shrinks.moneyNonneg
    by_cases bid : rule.side = .bid
    · rw [if_pos bid] at shrunk
      linarith
    · -- an ask is paid what its maker has frozen
      have ask : rule.side = .ask := by
        cases side : rule.side with
        | ask => rfl
        | bid => exact absurd side bid
      rw [if_neg bid, zero_add] at shrunk
      have paid := (pay.maker_pays_le opened).trans pay.makerPays
      rw [pay.side, ask] at paid
      change (LoopState.fill { st with world := w } rule maker amount).deal.value ≤
        w.ledger.holds ⟨maker.userId, .freeze, st.market.money⟩ at paid
      rw [observed.holds] at paid
      have part := le_frozenSum trading.sound.accounts_nonneg maker.userId st.market.money
      rw [Ledger.accounts_apply] at part
      linarith

omit [Libmpdec] [Settings] in
theorem World.Observed.total {w w' : World} (same : w.Observed w') (asset : String) :
    w'.ledger.total asset = w.ledger.total asset := by
  rw [Ledger.total_eq_assetSum, Ledger.total_eq_assetSum, same.accounts]

/-- Nobody pays more than there is. -/
theorem Payable.pays_le_total (pay : Payable st rule maker amount)
    (sound : st.world.ledger.Sound)
    (opened : (openedWorld real now rule st maker amount).ledger.exact = true) (side : Side) :
    ((st.fill rule maker amount).pays side).value ≤
      st.world.ledger.total (st.market.gives side) := by
  have taker := pay.takerPays.trans (sound.holds_le_total _)
  have maker_ := ((pay.maker_pays_le opened).trans pay.makerPays).trans (sound.holds_le_total _)
  rw [pay.side] at maker_
  by_cases same : side = rule.side
  · rw [same]
    exact taker
  · rw [Side.eq_opposite_of_ne same]
    exact maker_

omit [Libmpdec] in
theorem Covers.fee_grid {conf : MarketConf} {f : Fill} (covers : Covers digits conf)
    (market : conf.Ok) (fine : f.Fine conf) (side : Side) :
    OnGrid (-digits (conf.gets side)) (f.fee side).value := by
  have grid := fine.fee side
  cases side with
  | ask => exact grid.mono (neg_le_neg covers.fee)
  | bid => exact grid.mono (neg_le_neg (market.bidFeePrec.trans covers.stock))

section Parties

variable {conf : MarketConf} {f : Fill} {taker : Order} {side : Side}

/-- A taker with room for a fill settles it without rounding. -/
theorem fillTaker_fits (real : Bool) (now : Time) (rule : MatchRule) (market : conf.Ok)
    (ok : f.Ok conf) (fine : f.Fine conf) (covers : Covers digits conf)
    (tallied : taker.Tallied conf rule.side) (takerFee : FeeOk conf taker.takerFee)
    (stock : taker.dealStock.value + f.amount.value < capacity (conf.stockPrec + conf.feePrec))
    (money : taker.dealMoney.value + f.deal.value <
      capacity (conf.stockPrec + conf.moneyPrec + conf.feePrec))
    (left : (mpdSub taker.left (rule.spends f)).value =
      taker.left.value - (rule.spends f).value)
    (sound : w.ledger.Sound)
    (le : (f.pays rule.side).value ≤
      w.ledger.holds ⟨taker.userId, .available, conf.gives rule.side⟩)
    (gives : w.ledger.total (conf.gives rule.side) < capacity (digits (conf.gives rule.side)))
    (gets : w.ledger.total (conf.gets rule.side) + (f.receives rule.side).value <
      capacity (digits (conf.gets rule.side)))
    (exact : w.ledger.exact = true) :
    (fillTaker real now rule conf w taker f).2.ledger.exact = true ∧
      (fillTaker real now rule conf w taker f).2.totals = w.totals :=
  settle_fits real taker.takerFee _ (taker.record now rule.side f (rule.spends f)) market ok covers
    sound le (covers.fee_grid market fine rule.side) gives gets
    (tallied.observed ok fine takerFee.digits.nonneg stock money left exact)

/-- So does a maker. -/
theorem fillMaker_fits (real : Bool) (now : Time) (node : Ref) (market : conf.Ok)
    (ok : f.Ok conf) (fine : f.Fine conf) (covers : Covers digits conf)
    (tallied : maker.Tallied conf side) (makerFee : FeeOk conf maker.makerFee)
    (stock : maker.dealStock.value + f.amount.value < capacity (conf.stockPrec + conf.feePrec))
    (money : maker.dealMoney.value + f.deal.value <
      capacity (conf.stockPrec + conf.moneyPrec + conf.feePrec))
    (left : (mpdSub maker.left f.amount).value = maker.left.value - f.amount.value)
    (freeze : (mpdSub maker.freeze (f.pays side)).value =
      maker.freeze.value - (f.pays side).value)
    (sound : w.ledger.Sound)
    (le : (f.pays side).value ≤ w.ledger.holds ⟨maker.userId, .freeze, conf.gives side⟩)
    (gives : w.ledger.total (conf.gives side) < capacity (digits (conf.gives side)))
    (gets : w.ledger.total (conf.gets side) + (f.receives side).value <
      capacity (digits (conf.gets side)))
    (exact : w.ledger.exact = true) :
    (fillMaker real now side conf w node maker f).ledger.exact = true ∧
      (fillMaker real now side conf w node maker f).totals = w.totals := by
  refine settle_fits real maker.makerFee _ (makerAfter maker now side f) market ok covers
    sound le (covers.fee_grid market fine side) gives gets ?_
  rw [World.store_ledger, World.observe_ledger, Ledger.exact_observe]
  exact ⟨tallied.observed ok fine makerFee.digits.nonneg stock money left exact, freeze⟩

omit [Libmpdec] in
/-- Once one party has settled there is still room for the other. -/
theorem Fill.Ok.supply_between {l l₁ : Ledger} {user : ℕ} {source : BalanceType}
    (ok : f.Ok conf) (posts : l.Posts l₁ (settlement conf user side source f))
    (pays : ∀ side, (f.pays side).value ≤ l.total (conf.gives side))
    (supply : ∀ side, 2 * l.total (conf.gives side) < capacity (digits (conf.gives side))) :
    l₁.total (conf.gives side.opposite) < capacity (digits (conf.gives side.opposite)) ∧
      l₁.total (conf.gets side.opposite) + (f.receives side.opposite).value <
        capacity (digits (conf.gets side.opposite)) := by
  have moved := ok.assetSum_settlement_le user side source
  have own := ok.paysPos side
  have other := ok.paysPos side.opposite
  have ownLe := pays side
  have otherLe := pays side.opposite
  have ownSupply := supply side
  have otherSupply := supply side.opposite
  simp only [MarketConf.gets_eq, Fill.receives_eq, Side.opposite_opposite] at moved ⊢
  rw [posts.total, posts.total]
  constructor
  · have there := moved (conf.gives side.opposite)
    rw [if_pos rfl] at there
    split at there <;> linarith
  · have here := moved (conf.gives side)
    rw [if_pos (rfl : conf.gives side = conf.gives side)] at here
    split at here
    · rename_i same
      rw [same] at otherLe
      linarith
    · linarith

end Parties

/-- The taker's movements do not round. -/
theorem Fitting.taker_fits (real : Bool) (now : Time) (fair : rule.Fair ok need)
    (roomy : rule.Roomy ok stockRoom moneyRoom) (covers : Covers digits st.market.toMarketConf)
    (heldNonneg : ∀ user asset, 0 ≤ held user asset) (trading : Trading rule ok need held st)
    (fitting : Fitting digits stockRoom moneyRoom rule st) (meets : Meets rule st node maker)
    (chosen : rule.volume fuel st maker = some (w, some amount)) :
    (fillTaker real now rule st.market.toMarketConf
        (openedWorld real now rule { st with world := w } maker amount) st.taker
        (LoopState.fill { st with world := w } rule maker amount)).2.ledger.exact = true ∧
      (fillTaker real now rule st.market.toMarketConf
        (openedWorld real now rule { st with world := w } maker amount) st.taker
        (LoopState.fill { st with world := w } rule maker amount)).2.totals = st.world.totals := by
  have observed := fair.observes chosen
  have before := trading.observed observed
  obtain ⟨opened, fine⟩ := fitting.opens real now fair roomy trading meets chosen
  have left := (fitting.leaves fair roomy trading meets chosen).1
  obtain ⟨pay, _⟩ := fitting.payable real now fair roomy heldNonneg trading meets chosen
  obtain ⟨stock, money⟩ :=
    fitting.taker_covers real now fair roomy heldNonneg trading meets chosen
  have fillOk := (pay.fill_ok opened).1
  have posts := openedWorld_posts real now rule before.sound maker amount
  have supply (asset : String) :
      (openedWorld real now rule { st with world := w } maker amount).ledger.total asset =
        w.ledger.total asset := by
    rw [posts.total, map_zero, add_zero]
  have below (side : Side) : 2 * w.ledger.total (st.market.gives side) <
      capacity (digits (st.market.gives side)) := by
    rw [observed.total]
    exact fitting.supply side
  have pays := pay.pays_le_total before.sound opened
  have paysPos := fillOk.paysPos
  obtain ⟨settled, totals⟩ := fillTaker_fits real now rule pay.market fillOk fine covers
    fitting.tallied trading.takerFee stock money left posts.sound
    (by
      rw [posts.holds, Finsupp.zero_apply, add_zero]
      exact pay.takerPays)
    (by
      rw [supply]
      linarith [below rule.side, pays rule.side, paysPos rule.side])
    (by
      rw [MarketConf.gets_eq, Fill.receives_eq, supply]
      linarith [below rule.side.opposite, pays rule.side.opposite])
    opened
  refine ⟨settled, totals.trans ?_⟩
  exact (openedWorld_silent real now rule { st with world := w } maker amount).totals.trans
    observed.totals

/-- What a maker keeps and what it keeps frozen are computed without rounding. -/
theorem Payable.maker_leaves (pay : Payable st rule maker amount)
    (covers : Covers digits st.market.toMarketConf) (spare : maker.Spare st.market.toMarketConf)
    (sound : st.world.ledger.Sound)
    (supply : 2 * st.world.ledger.total (st.market.gives rule.side.opposite) <
      capacity (digits (st.market.gives rule.side.opposite)))
    (opened : (openedWorld real now rule st maker amount).ledger.exact = true) :
    (mpdSub maker.left (st.fill rule maker amount).amount).value =
        maker.left.value - (st.fill rule maker amount).amount.value ∧
      (mpdSub maker.freeze ((st.fill rule maker amount).pays rule.side.opposite)).value =
        maker.freeze.value - ((st.fill rule maker amount).pays rule.side.opposite).value := by
  have resting := pay.resting
  have ok := (pay.fill_ok opened).1
  have paid := pay.maker_pays_le opened
  have held := pay.makerPays.trans (sound.holds_le_total _)
  rw [pay.side] at held
  constructor
  · rw [LoopState.fill, makeFill_amount]
    apply mpdSub_fits resting.leftFinite pay.finite
    apply InCapacity.of_nonneg (resting.leftDigits.sub pay.digits).onGrid
      (sub_nonneg.mpr pay.le_left)
    have below := spare.stock.trans_le (capacity_anti
      (show st.market.stockPrec ≤ st.market.stockPrec + st.market.feePrec by
        linarith [resting.makerFee.digits.nonneg]))
    linarith [spare.stockNonneg, pay.pos]
  · apply mpdSub_fits resting.freezeFinite (ok.paysFinite _)
    have frozenDigits := resting.frozen_digits pay.market
    rw [← resting.freeze, pay.side] at frozenDigits
    apply InCapacity.of_nonneg (frozenDigits.sub (ok.paysDigits _)).onGrid (sub_nonneg.mpr paid)
    have below := capacity_anti (covers.gives rule.side.opposite)
    linarith [ok.paysPos rule.side.opposite, resting.freeze_pos]

/-- The maker's movements do not round either. -/
theorem Fitting.maker_fits (real : Bool) (now : Time) (fair : rule.Fair ok need)
    (roomy : rule.Roomy ok stockRoom moneyRoom) (covers : Covers digits st.market.toMarketConf)
    (heldNonneg : ∀ user asset, 0 ≤ held user asset) (trading : Trading rule ok need held st)
    (fitting : Fitting digits stockRoom moneyRoom rule st) (meets : Meets rule st node maker)
    (chosen : rule.volume fuel st maker = some (w, some amount)) :
    (tradedWorld real now rule { st with world := w } node maker amount).ledger.exact = true ∧
      (tradedWorld real now rule { st with world := w } node maker amount).totals =
        st.world.totals := by
  have observed := fair.observes chosen
  have before := trading.observed observed
  obtain ⟨opened, fine⟩ := fitting.opens real now fair roomy trading meets chosen
  obtain ⟨pay, _⟩ := fitting.payable real now fair roomy heldNonneg trading meets chosen
  obtain ⟨takerExact, takerTotals⟩ :=
    fitting.taker_fits real now fair roomy covers heldNonneg trading meets chosen
  have fillOk := (pay.fill_ok opened).1
  have spare := fitting.makers meets.rests
  have supply (side : Side) : 2 * w.ledger.total (st.market.gives side) <
      capacity (digits (st.market.gives side)) := by
    rw [observed.total]
    exact fitting.supply side
  have pays := pay.pays_le_total before.sound opened
  have openedPosts := openedWorld_posts real now rule before.sound maker amount
  have paid := (fillTaker_posts rule st.taker pay.market fillOk openedPosts.sound (by
    rw [openedPosts.holds, Finsupp.zero_apply, add_zero]
    exact pay.takerPays) takerExact).1
  have posts := openedPosts.trans paid
  rw [zero_add] at posts
  obtain ⟨left, freeze⟩ := pay.maker_leaves covers spare before.sound
    (supply rule.side.opposite) opened
  obtain ⟨stock, money⟩ := spare.covers pay.resting pay.le_left
  have deal : (LoopState.fill { st with world := w } rule maker amount).deal.value =
      maker.price.value * amount.value := by
    have product := (pay.fill_ok opened).2
    rw [← product]
    exact congrArg Mpd.value makeFill_deal
  obtain ⟨gives, gets⟩ := fillOk.supply_between posts pays supply
  obtain ⟨settled, totals⟩ := fillMaker_fits real now node pay.market fillOk fine covers
    (pay.side ▸ spare.toTallied) pay.resting.makerFee
    (by rw [LoopState.fill, makeFill_amount]; exact stock) (by rw [deal]; exact money) left freeze
    posts.sound
    (by
      rw [posts.holds, settlement_freeze, add_zero]
      exact (pay.maker_pays_le opened).trans (pay.side ▸ pay.makerPays))
    gives gets takerExact
  exact ⟨settled, totals.trans takerTotals⟩

/-- The whole fill does not round. -/
theorem Fitting.fill_fits (real : Bool) (now : Time) (fair : rule.Fair ok need)
    (roomy : rule.Roomy ok stockRoom moneyRoom) (covers : Covers digits st.market.toMarketConf)
    (heldNonneg : ∀ user asset, 0 ≤ held user asset) (trading : Trading rule ok need held st)
    (fitting : Fitting digits stockRoom moneyRoom rule st) (meets : Meets rule st node maker)
    (chosen : rule.volume fuel st maker = some (w, some amount)) :
    (matchFill real now rule { st with world := w } node maker amount).world.ledger.exact = true ∧
      (matchFill real now rule { st with world := w } node maker amount).world.totals =
        st.world.totals := by
  have observed := fair.observes chosen
  have before := trading.observed observed
  obtain ⟨pay, _⟩ := fitting.payable real now fair roomy heldNonneg trading meets chosen
  obtain ⟨traded, totals⟩ :=
    fitting.maker_fits real now fair roomy covers heldNonneg trading meets chosen
  have rests : Market.Rests st.market w.heap node maker := observed.heap.symm ▸ meets.rests
  have keep := LoopState.sameKey_makerAfter { st with world := w } now rule maker amount
  have written := tradedWorld_traded real now rule { st with world := w } node maker amount
  have stored := before.index.store rests keep
  have restsStored := (before.index.toBookInv.store rests keep).2
  simp only [← written.heap] at stored restsStored
  have freezeFinite := (pay.makerAfter_freeze traded).1
  constructor
  · refine Eq.trans ?_ traded
    exact congrArg Ledger.exact (closeMaker_ledger real stored restsStored freezeFinite
      fun spent => (pay.makerAfter_spent traded spent).le)
  · exact (closeMaker_silent real st.market _ node _).totals.trans totals

/-- A maker that is traded with keeps room for what is left of it. -/
theorem Payable.makerAfter_spare (pay : Payable st rule maker amount)
    (spare : maker.Spare st.market.toMarketConf)
    (fine : (st.fill rule maker amount).Fine st.market.toMarketConf)
    (exact : (tradedWorld real now rule st node maker amount).ledger.exact = true) :
    (st.makerAfter now rule maker amount).Spare st.market.toMarketConf := by
  have ok := (pay.fill_ok (tradedWorld_opened exact)).1
  have product := (pay.fill_ok (tradedWorld_opened exact)).2
  have left := (pay.makerAfter_left exact).2
  have feePrec := pay.takerFee.digits.nonneg
  have amountEq : (st.fill rule maker amount).amount = amount := makeFill_amount
  have deal : (st.fill rule maker amount).deal.value = maker.price.value * amount.value := by
    rw [← product]
    exact congrArg Mpd.value makeFill_deal
  obtain ⟨stock, money⟩ := spare.covers pay.resting pay.le_left
  rw [← deal] at money
  rw [← amountEq] at stock
  have tallied := spare.toTallied
  rw [pay.side] at tallied
  have sums := tallied.sums ok fine feePrec stock money
  have side : (st.makerAfter now rule maker amount).side = rule.side.opposite := pay.side
  have recorded := tallied.record ok fine feePrec stock money now (st.fill rule maker amount).amount
  have stockSum : (st.makerAfter now rule maker amount).dealStock.value =
      maker.dealStock.value + amount.value := by
    rw [← amountEq]
    exact sums.1
  have moneySum : (st.makerAfter now rule maker amount).dealMoney.value =
      maker.dealMoney.value + maker.price.value * amount.value := by
    rw [← deal]
    exact sums.2.1
  have price : (st.makerAfter now rule maker amount).price = maker.price := rfl
  refine { toTallied := ?_, stock := ?_, money := ?_ }
  · rw [side]
    exact { recorded with }
  · rw [stockSum, left]
    linarith [spare.stock]
  · rw [moneySum, left, price]
    linarith [spare.money]

/-- One fill keeps the room of taker and makers. -/
theorem Fitting.fill (real : Bool) (now : Time) (fair : rule.Fair ok need)
    (roomy : rule.Roomy ok stockRoom moneyRoom) (covers : Covers digits st.market.toMarketConf)
    (heldNonneg : ∀ user asset, 0 ≤ held user asset) (trading : Trading rule ok need held st)
    (fitting : Fitting digits stockRoom moneyRoom rule st) (meets : Meets rule st node maker)
    (chosen : rule.volume fuel st maker = some (w, some amount)) :
    Fitting digits stockRoom moneyRoom rule
      (matchFill real now rule { st with world := w } node maker amount) := by
  have observed := fair.observes chosen
  have before := trading.observed observed
  obtain ⟨opened, fine⟩ := fitting.opens real now fair roomy trading meets chosen
  obtain ⟨pay, shrinks⟩ := fitting.payable real now fair roomy heldNonneg trading meets chosen
  have exact := (fitting.fill_fits real now fair roomy covers heldNonneg trading meets chosen).1
  have traded := (fitting.maker_fits real now fair roomy covers heldNonneg trading meets chosen).1
  obtain ⟨left, leftGrid⟩ := fitting.leaves fair roomy trading meets chosen
  obtain ⟨stock, money⟩ :=
    fitting.taker_covers real now fair roomy heldNonneg trading meets chosen
  have rests : Market.Rests st.market w.heap node maker := observed.heap.symm ▸ meets.rests
  have filled := matchFill_filled real now rule amount before.index.toBookInv rests
  have settled := matchFill_settled pay before.sound before.index rests exact
  have fillOk := (pay.fill_ok opened).1
  have feePrec := trading.takerFee.digits.nonneg
  have conf : (matchFill real now rule { st with world := w } node maker amount).market.toMarketConf
      = st.market.toMarketConf := filled.conf
  have sums := fitting.tallied.sums fillOk fine feePrec stock money
  have takerSide : (LoopState.fill { st with world := w } rule maker amount).takerSide =
      rule.side := makeFill_takerSide
  have leftSum : (LoopState.takerAfter { st with world := w } now rule maker
      amount).left.value = _ := left
  have stockSum : (LoopState.takerAfter { st with world := w } now rule maker
      amount).dealStock.value = _ := sums.1
  have moneySum : (LoopState.takerAfter { st with world := w } now rule maker
      amount).dealMoney.value = _ := sums.2.1
  refine ⟨exact, ?_, ?_, fitting.priceNonneg, ?_, ?_, ?_, ?_⟩
  · intro side
    rw [conf, settled.posts.total]
    have lost := fillOk.assetSum_posted_le (st.market.gives side)
    have supply := fitting.supply side
    rw [← observed.total] at supply
    linarith
  · rw [conf]
    exact fitting.tallied.record fillOk fine feePrec stock money now _
  · rw [conf]
    change OnGrid _ (LoopState.takerAfter { st with world := w } now rule maker amount).left.value
    rw [leftSum]
    exact leftGrid
  · rw [conf]
    refine lt_of_le_of_lt ?_ fitting.stock
    change (LoopState.takerAfter { st with world := w } now rule maker amount).dealStock.value +
      stockRoom st.market.toMarketConf
        (LoopState.takerAfter { st with world := w } now rule maker amount) ≤ _
    rw [stockSum]
    linarith [shrinks.stock]
  · rw [conf, settled.posts.accounts, map_add, observed.accounts]
    refine lt_of_le_of_lt ?_ fitting.money
    have paid := fillOk.frozenSum_posted_le
    have shrunk := shrinks.money
    rw [takerSide] at paid
    change (LoopState.takerAfter { st with world := w } now rule maker amount).dealMoney.value +
      moneyRoom st.market.toMarketConf
        (LoopState.takerAfter { st with world := w } now rule maker amount) + _ ≤ _
    rw [moneySum]
    cases side : rule.side with
    | ask =>
        simp only [side, reduceCtorEq, if_true, if_false] at paid shrunk
        linarith
    | bid =>
        simp only [side, reduceCtorEq, if_true, if_false] at paid shrunk
        linarith
  · intro ref o restsX
    rw [conf]
    rcases settled.rests restsX with ⟨_, restsX⟩ | ⟨_, rfl, _⟩
    · exact fitting.makers ⟨(congrFun observed.heap ref).symm.trans restsX.1, restsX.2⟩
    · exact pay.makerAfter_spare (fitting.makers meets.rests) fine traded

omit [Libmpdec] [Settings] in
/-- Looking for an amount keeps it as well. -/
theorem Fitting.observed (fitting : Fitting digits stockRoom moneyRoom rule st)
    (same : st.world.Observed w) (exact : w.ledger.exact = true) :
    Fitting digits stockRoom moneyRoom rule { st with world := w } := by
  refine ⟨exact, ?_, fitting.tallied, fitting.priceNonneg, fitting.leftGrid, fitting.stock, ?_, ?_⟩
  · intro side
    rw [same.total]
    exact fitting.supply side
  · simp only [same.accounts]
    exact fitting.money
  · intro ref o rests
    exact fitting.makers (same.heap ▸ rests)

/-- A loop that starts with room for everything does not round. -/
theorem execute_fits (fair : rule.Fair ok need) (roomy : rule.Roomy ok stockRoom moneyRoom)
    (covers : Covers digits st.market.toMarketConf)
    (heldNonneg : ∀ user asset, 0 ≤ held user asset) (trading : Trading rule ok need held st)
    (fitting : Fitting digits stockRoom moneyRoom rule st)
    (run : execute real now fuel rule st = some st') :
    Fitting digits stockRoom moneyRoom rule st' ∧ st'.world.totals = st.world.totals := by
  apply matchLoop_rule real now rule
    (fun rest st₁ => At rule rest st₁ ∧ Trading rule ok need held st₁ ∧
      Fitting digits stockRoom moneyRoom rule st₁ ∧
      st₁.market.toMarketConf = st.market.toMarketConf ∧
      st₁.world.totals = st.world.totals)
    (fun st₁ => Fitting digits stockRoom moneyRoom rule st₁ ∧ st₁.world.totals = st.world.totals)
    (fun holds => holds.1) (fun holds _ => ⟨holds.2.2.1, holds.2.2.2.2⟩) _ _ fuel
    ⟨.start trading.index.toBookInv, trading, fitting, rfl, rfl⟩ run
  · intro node rest st₁ maker fuel w holds meets chosen
    obtain ⟨_, trading₁, fitting₁, _, totals⟩ := holds
    have observed := fair.observes chosen
    have resting := trading₁.resting meets.rests
    have exact := roomy.volume trading₁.taker resting trading₁.takerFee.digits.nonneg
      (fitting₁.moneyRoom_lt trading₁.sound) chosen fitting₁.exact
    exact ⟨fitting₁.observed observed exact, observed.totals.trans totals⟩
  · intro node rest st₁ maker fuel w amount holds meets chosen
    obtain ⟨at_, trading₁, fitting₁, conf, totals⟩ := holds
    have observed := fair.observes chosen
    have covers₁ : Covers digits st₁.market.toMarketConf := conf ▸ covers
    obtain ⟨filled, position⟩ := at_.fill real now amount meets observed
    obtain ⟨exact, totals₁⟩ :=
      fitting₁.fill_fits real now fair roomy covers₁ heldNonneg trading₁ meets chosen
    refine ⟨position, (trading₁.fill fair heldNonneg meets chosen exact).1,
      fitting₁.fill real now fair roomy covers₁ heldNonneg trading₁ meets chosen,
      filled.conf.trans conf, totals₁.trans totals⟩

end Step

end ViabtcServer.MatchEngine
