import ViabtcServer.MatchEngine.Rules

/-!
# Matching runs

What a whole loop does. It always returns; and while nothing rounds, it keeps
the indexes in step, the frozen balances backed by the resting orders and the
taker covered, drops no `NULL`, and posts exactly its fills.
-/

namespace ViabtcServer.MatchEngine

open Decimal Container

variable [Libmpdec] [Settings] {rule : MatchRule} {st st' start : LoopState} {node : Ref}
  {rest : List Ref} {maker : Order} {real : Bool} {now : Time} {fuel : ℕ} {w : World}
  {amount : Mpd}

/-! ## Returning -/

omit [Libmpdec] [Settings] in
/-- The iterator never meets a node twice. -/
theorem At.ahead (at_ : At rule (node :: rest) st) : ∀ x ∈ rest, x ≠ node := by
  obtain ⟨done, book⟩ := at_.suffix
  have nodup := at_.inv.nodup rule.side.opposite
  rw [book] at nodup
  rintro x mem rfl
  exact (List.nodup_cons.mp (List.nodup_append.mp nodup).2.1).1 mem

/-- After the search for an amount and the fill the iterator is at its next
position. -/
theorem At.fill (real : Bool) (now : Time) (amount : Mpd) (at_ : At rule (node :: rest) st)
    (meets : Meets rule st node maker) (observed : st.world.Observed w) :
    Filled { st with world := w } (matchFill real now rule { st with world := w } node maker amount)
        node (LoopState.makerAfter { st with world := w } now rule maker amount)
        (LoopState.fill { st with world := w } rule maker amount) ∧
      At rule rest (matchFill real now rule { st with world := w } node maker amount) := by
  have positioned := at_.world observed.toSameOrders
  have rests : st.market.Rests w.heap node maker := observed.heap.symm ▸ meets.rests
  have filled := matchFill_filled real now rule amount positioned.inv rests
  exact ⟨filled, positioned.next filled⟩

omit [Settings] in
/-- The taker stays sane: it never spends more than it has left. -/
theorem takerAfter_sane (now : Time) (sane : rule.Sane) (taker : TakerSane st.taker)
    (makerSane : MakerSane maker)
    (unfinished : mpdCmp st.taker.left mpdZero ≠ 0)
    (chosen : rule.volume fuel st maker = some (w, some amount)) :
    TakerSane (LoopState.takerAfter { st with world := w } now rule maker amount) := by
  obtain ⟨finite, _, le⟩ := sane.spends taker makerSane unfinished chosen
    (f := LoopState.fill { st with world := w } rule maker amount) makeFill_amount makeFill_deal
  refine ⟨Libmpdec.sub_finite taker.finite finite, ?_⟩
  exact (Libmpdec.sub_rounds taker.finite finite).nonneg (sub_nonneg.mpr le)

/-- A matching loop over sane makers returns, however the decimals round. -/
theorem execute_returns (sane : rule.Sane) (inv : BookInv st.market st.world.heap)
    (taker : TakerSane st.taker)
    (makers : ∀ {ref o}, st.market.Rests st.world.heap ref o → MakerSane o)
    (bound : (st.market.book rule.side.opposite).length < fuel) :
    ∃ st', execute real now fuel rule st = some st' := by
  refine matchLoop_returns
    (fun rest st => At rule rest st ∧ TakerSane st.taker ∧
      ∀ node ∈ rest, ∀ maker, st.world.heap node = some maker → MakerSane maker)
    (fun holds => holds.1) ?_ ?_ bound ⟨.start inv, taker, ?_⟩
  · intro node rest st maker fuel holds meets
    exact sane.volume holds.2.1 (holds.2.2 node List.mem_cons_self maker meets.rests.1)
  · intro node rest st maker fuel w amount holds meets chosen
    obtain ⟨at_, taker, makers⟩ := holds
    have makerSane := makers node List.mem_cons_self maker meets.rests.1
    have observed := sane.observes chosen
    have ⟨filled, position⟩ := at_.fill real now amount meets observed
    refine ⟨position, takerAfter_sane now sane taker makerSane meets.unfinished chosen, ?_⟩
    intro x mem other found
    rw [filled.heap x (at_.ahead x mem)] at found
    exact makers x (List.mem_cons_of_mem node mem) other
      ((congrFun observed.heap x).symm.trans found)
  · intro node mem maker found
    obtain ⟨o, rests, _⟩ := inv.rests_of_mem mem
    obtain rfl := rests.eq found
    exact makers rests

/-! ## What every loop keeps -/

/-- What observing and every fill keep, a loop over an ordered book keeps. -/
theorem execute_keeps (sane : rule.Sane) (motive : LoopState → Prop)
    (observe : ∀ {st w}, motive st → st.world.Observed w → motive { st with world := w })
    (fill : ∀ {st node maker amount}, motive st →
      Filled st (matchFill real now rule st node maker amount) node
        (st.makerAfter now rule maker amount) (st.fill rule maker amount) →
      motive (matchFill real now rule st node maker amount))
    (inv : BookInv st.market st.world.heap) (holds : motive st)
    (run : execute real now fuel rule st = some st') : motive st' := by
  apply matchLoop_rule real now rule (fun rest st₁ => At rule rest st₁ ∧ motive st₁) motive
    (fun holds => holds.1) (fun holds _ => holds.2) _ _ fuel ⟨.start inv, holds⟩ run
  · intro node rest st₁ maker fuel w holds _ chosen
    exact observe holds.2 (sane.observes chosen)
  · intro node rest st₁ maker fuel w amount holds meets chosen
    have observed := sane.observes chosen
    have ⟨filled, position⟩ := holds.1.fill real now amount meets observed
    exact ⟨position, fill (observe holds.2 observed) filled⟩

theorem matchFill_exact_before
    (exact : (matchFill real now rule st node maker amount).world.ledger.exact = true) :
    st.world.ledger.exact = true := by
  have opened := (fillTaker_exact (fillMaker_exact (matchFill_exact exact)).1).1
  rw [openedWorld_ledger] at opened
  simp only [World.observeFill, World.observe_ledger, Ledger.exact_observe] at opened
  exact opened.1.1.1

/-- A result reached without rounding started without rounding. -/
theorem execute_exact (sane : rule.Sane) (inv : BookInv st.market st.world.heap)
    (run : execute real now fuel rule st = some st') :
    st'.world.ledger.exact = true → st.world.ledger.exact = true := by
  apply execute_keeps sane
    (fun st₁ => st₁.world.ledger.exact = true → st.world.ledger.exact = true) _ _ inv id run
  · intro st₁ w before observed
    exact before ∘ observed.exact
  · intro st₁ node maker amount before _
    exact before ∘ matchFill_exact_before

/-! ## Fair rules -/

/-- What a rule guarantees about a taker with `ok`: amounts have the digits of
the market, and a fill lowers what the taker `need`s by at least what it pays. -/
structure MatchRule.Fair (rule : MatchRule) (ok : MarketConf → Order → Prop)
    (need : Order → ℚ) : Prop extends rule.Sane where
  taker : ∀ {conf taker}, ok conf taker → TakerSane taker
  need_nonneg : ∀ {conf taker}, ok conf taker → 0 ≤ need taker
  digits : ∀ {fuel st maker w amount}, ok st.market.toMarketConf st.taker →
    maker.Resting st.market.toMarketConf → rule.volume fuel st maker = some (w, some amount) →
    FracDigits st.market.stockPrec amount.value
  step : ∀ {conf taker maker} (taker' : Order) {f : Fill}, ok conf taker → maker.Resting conf →
    rule.stops taker maker = false → FracDigits conf.stockPrec f.amount.value →
    0 ≤ f.amount.value → f.deal.value = maker.price.value * f.amount.value →
    (rule.spends f).value ≤ taker.left.value → taker'.left.isFinite →
    taker'.left.value = taker.left.value - (rule.spends f).value → taker'.price = taker.price →
    ok conf taker' ∧ need taker' + (f.pays rule.side).value ≤ need taker

omit [Libmpdec] [Settings] in
theorem Order.Resting.sane {conf : MarketConf} (resting : maker.Resting conf) : MakerSane maker :=
  ⟨resting.priceFinite, resting.pricePos, resting.leftFinite, resting.leftPos⟩

/-- A taker whose rest is an amount of stock. -/
structure StockTaker (conf : MarketConf) (taker : Order) : Prop extends TakerSane taker where
  digits : FracDigits conf.stockPrec taker.left.value

/-- A taker that pays at most its own price for its rest. -/
structure BidTaker (conf : MarketConf) (taker : Order) : Prop extends StockTaker conf taker where
  priceFinite : taker.price.isFinite
  pricePos : 0 < taker.price.value

omit [Settings] in
theorem restVolume_digits (volume : rule.volume = restVolume)
    (taker : StockTaker st.market.toMarketConf st.taker)
    (resting : maker.Resting st.market.toMarketConf)
    (chosen : rule.volume fuel st maker = some (w, some amount)) :
    FracDigits st.market.stockPrec amount.value := by
  rw [volume, restVolume] at chosen
  obtain ⟨_, same⟩ := Prod.mk.inj (Option.some.inj chosen)
  obtain rfl := Option.some.inj same
  rcases (minLeft_spec taker.toTakerSane resting.sane).1 with same | same <;> rw [same]
  · exact taker.digits
  · exact resting.leftDigits

omit [Libmpdec] [Settings] in
theorem StockTaker.spend {conf : MarketConf} {taker taker' : Order} {spent : Mpd}
    (ok : StockTaker conf taker) (digits : FracDigits conf.stockPrec spent.value)
    (le : spent.value ≤ taker.left.value) (finite : taker'.left.isFinite)
    (left : taker'.left.value = taker.left.value - spent.value) : StockTaker conf taker' := by
  refine ⟨⟨finite, ?_⟩, ?_⟩
  · rw [left]
    exact sub_nonneg.mpr le
  · rw [left]
    exact ok.digits.sub digits

omit [Settings] in
/-- An ask spends stock and needs what is left of it. -/
theorem fair_of_ask (sane : rule.Sane) (side : rule.side = .ask)
    (volume : rule.volume = restVolume) (spends : rule.spends = Fill.amount) :
    rule.Fair StockTaker (fun taker => taker.left.value) where
  toSane := sane
  taker ok := ok.toTakerSane
  need_nonneg ok := ok.nonneg
  digits := restVolume_digits volume
  step {conf taker maker} taker' {f} ok resting _ digits _ _ le finite left _ := by
    rw [spends] at le left
    refine ⟨ok.spend digits le finite left, ?_⟩
    rw [left, side]
    exact (sub_add_cancel _ _).le

omit [Settings] in
theorem limitAskRule_fair : limitAskRule.Fair StockTaker (fun taker => taker.left.value) :=
  fair_of_ask limitAskRule_sane rfl rfl rfl

omit [Settings] in
theorem marketAskRule_fair : marketAskRule.Fair StockTaker (fun taker => taker.left.value) :=
  fair_of_ask marketAskRule_sane rfl rfl rfl

omit [Settings] in
/-- A limit bid trades with no maker above its own price. -/
theorem limitBidRule_price {taker : Order} (takerFinite : taker.price.isFinite)
    (makerFinite : maker.price.isFinite) (acceptable : limitBidRule.stops taker maker = false) :
    maker.price.value ≤ taker.price.value := by
  have stops : ¬ mpdCmp taker.price maker.price < 0 := by simpa [limitBidRule] using acceptable
  rwa [mpdCmp_lt_zero takerFinite makerFinite, not_lt] at stops

omit [Settings] in
/-- A limit bid needs its own price for what is left; makers ask no more. -/
theorem limitBidRule_fair :
    limitBidRule.Fair BidTaker (fun taker => taker.price.value * taker.left.value) where
  toSane := limitBidRule_sane
  taker ok := ok.toTakerSane
  need_nonneg ok := mul_nonneg ok.pricePos.le ok.nonneg
  digits ok := restVolume_digits rfl ok.toStockTaker
  step {conf taker maker} taker' {f} ok resting acceptable digits nonneg deal le finite left
      price := by
    refine ⟨⟨ok.toStockTaker.spend digits le finite left, price ▸ ok.priceFinite,
      price ▸ ok.pricePos⟩, ?_⟩
    have notAbove := limitBidRule_price ok.priceFinite resting.priceFinite acceptable
    have pays : (f.pays limitBidRule.side).value = maker.price.value * f.amount.value := deal
    have spent : taker'.left.value = taker.left.value - f.amount.value := left
    rw [pays, price, spent]
    nlinarith [mul_le_mul_of_nonneg_right notAbove nonneg]

omit [Settings] in
/-- A market bid needs the money that is left of it. -/
theorem marketBidRule_fair :
    marketBidRule.Fair (fun _ => TakerSane) (fun taker => taker.left.value) where
  toSane := marketBidRule_sane
  taker ok := ok
  need_nonneg ok := ok.nonneg
  digits {fuel st maker w amount} ok resting chosen := by
    obtain ⟨rfl, _⟩ := moneyVolume_some ok resting.sane chosen
    unfold moneyAmount
    simp only
    split
    · exact resting.leftDigits
    · rw [Libmpdec.rescale_value]
      · exact fracDigits_truncateAt resting.leftDigits.nonneg _
      · exact Libmpdec.div_finite ok.finite resting.priceFinite resting.pricePos.ne'
  step {conf taker maker} taker' {f} ok resting _ _ _ _ le finite left _ := by
    refine ⟨⟨finite, ?_⟩, ?_⟩
    · rw [left]
      exact sub_nonneg.mpr le
    · rw [left]
      exact (sub_add_cancel _ _).le

/-! ## What a fill posts to one balance -/

section Posted

variable {conf : MarketConf} {f : Fill}

omit [Libmpdec] in
/-- The net receipt of a party is not negative. -/
theorem Fill.Ok.net_nonneg (ok : f.Ok conf) (side : Side) :
    0 ≤ (f.receives side).value - raiseAt (-assetPrec (conf.gets side)) (f.fee side).value := by
  have digits := ok.paysDigits side.opposite
  rw [← conf.gets_eq, ← f.receives_eq] at digits
  exact sub_nonneg.mpr (raiseAt_le digits.onGrid (ok.fee_le side))

omit [Libmpdec] in
/-- Of the frozen balances only the maker's changes. -/
theorem Fill.posted_freeze (conf : MarketConf) (f : Fill) (user : ℕ) (asset : String) :
    f.posted conf ⟨user, .freeze, asset⟩ =
      if user = f.user f.takerSide.opposite ∧ conf.gives f.takerSide.opposite = asset then
        -(f.pays f.takerSide.opposite).value
      else 0 := by
  unfold posted
  rw [Finsupp.add_apply, settlement_freeze, zero_add]
  unfold settlement
  rw [Finsupp.add_apply, single_type_ne (show BalanceType.freeze ≠ .available by decide), add_zero]
  by_cases same : user = f.user f.takerSide.opposite ∧ conf.gives f.takerSide.opposite = asset
  · rw [if_pos same, same.1, ← same.2, Finsupp.single_eq_same]
  · rw [if_neg same, Finsupp.single_eq_of_ne]
    intro eq
    simp only [BalanceKey.mk.injEq, true_and] at eq
    exact same ⟨eq.1, eq.2.symm⟩

omit [Libmpdec] [Settings] in
private theorem single_nonneg (key key' : BalanceKey) {q : ℚ} (nonneg : 0 ≤ q) :
    0 ≤ Finsupp.single key q key' := by
  by_cases same : key' = key
  · rw [same, Finsupp.single_eq_same]
    exact nonneg
  · rw [Finsupp.single_eq_of_ne same]

omit [Libmpdec] in
/-- The taker's available balance falls by at most what it pays, also when it
trades with itself or both assets are one. -/
theorem Fill.Ok.posted_available (ok : f.Ok conf) :
    -(f.pays f.takerSide).value ≤
      f.posted conf ⟨f.user f.takerSide, .available, conf.gives f.takerSide⟩ := by
  unfold Fill.posted settlement
  simp only [Finsupp.add_apply, Finsupp.single_eq_same]
  have own := single_nonneg ⟨f.user f.takerSide, .available, conf.gets f.takerSide⟩
    ⟨f.user f.takerSide, .available, conf.gives f.takerSide⟩
    (ok.net_nonneg f.takerSide)
  have other := single_nonneg
    ⟨f.user f.takerSide.opposite, .available, conf.gets f.takerSide.opposite⟩
    ⟨f.user f.takerSide, .available, conf.gives f.takerSide⟩
    (ok.net_nonneg f.takerSide.opposite)
  rw [single_type_ne (show BalanceType.available ≠ .freeze by decide)]
  linarith

end Posted

end ViabtcServer.MatchEngine
