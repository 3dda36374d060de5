import ViabtcServer.MatchEngine.Settlement
import ViabtcServer.MatchEngine.Frozen

/-!
# One fill

What the body of the matching loops does. Of the orders only the maker is
written, and removed when nothing is left of it; the balances receive the
settlements of both parties; and the frozen amount of the maker falls by what
the maker pays.
-/

namespace ViabtcServer.MatchEngine

open Decimal Container

/-! ## Orders at rest -/

/-- A fee rate as the handlers admit it. -/
structure FeeOk (conf : MarketConf) (fee : Mpd) : Prop where
  finite : fee.isFinite
  nonneg : 0 ≤ fee.value
  lt_one : fee.value < 1
  digits : FracDigits conf.feePrec fee.value

/-- What an order has to freeze for what is left of it. -/
def Order.frozen (o : Order) : ℚ :=
  match o.side with
  | .ask => o.left.value
  | .bid => o.price.value * o.left.value

/-- A well formed limit order with something left. -/
structure Order.Open (conf : MarketConf) (o : Order) : Prop where
  limit : o.type = .limit
  market : o.market = conf.name
  priceFinite : o.price.isFinite
  pricePos : 0 < o.price.value
  priceDigits : FracDigits conf.moneyPrec o.price.value
  amountFinite : o.amount.isFinite
  amountDigits : FracDigits conf.stockPrec o.amount.value
  leftFinite : o.left.isFinite
  leftPos : 0 < o.left.value
  left_le : o.left.value ≤ o.amount.value
  leftDigits : FracDigits conf.stockPrec o.left.value
  takerFee : FeeOk conf o.takerFee
  makerFee : FeeOk conf o.makerFee

/-- An open order at rest: what is left of it is frozen. -/
structure Order.Resting (conf : MarketConf) (o : Order) : Prop extends Order.Open conf o where
  freezeFinite : o.freeze.isFinite
  freeze : o.freeze.value = o.frozen

theorem Order.Open.frozen_pos {conf : MarketConf} {o : Order} (ok : o.Open conf) :
    0 < o.frozen := by
  unfold Order.frozen
  split
  · exact ok.leftPos
  · exact mul_pos ok.pricePos ok.leftPos

theorem Order.Resting.freeze_pos {conf : MarketConf} {o : Order} (ok : o.Resting conf) :
    0 < o.freeze.value :=
  ok.freeze ▸ ok.toOpen.frozen_pos

/-! ## The fill -/

/-- The user on a side of a fill. -/
def Fill.user (f : Fill) : Side → ℕ
  | .ask => f.askUser
  | .bid => f.bidUser

variable [Libmpdec] {conf : MarketConf} {side : Side} {taker maker : Order} {amount : Mpd}
  {dealId : ℕ} {real : Bool} {now : Time} {rule : MatchRule} {st : LoopState} {node : Ref}

@[simp]
theorem makeFill_amount : (makeFill side taker maker amount dealId).amount = amount := by
  cases side <;> rfl

@[simp]
theorem makeFill_price : (makeFill side taker maker amount dealId).price = maker.price := by
  cases side <;> rfl

@[simp]
theorem makeFill_deal :
    (makeFill side taker maker amount dealId).deal = mpdMul maker.price amount := by
  cases side <;> rfl

@[simp]
theorem makeFill_dealId : (makeFill side taker maker amount dealId).dealId = dealId := by
  cases side <;> rfl

@[simp]
theorem makeFill_takerSide : (makeFill side taker maker amount dealId).takerSide = side := by
  cases side <;> rfl

@[simp]
theorem makeFill_user : (makeFill side taker maker amount dealId).user side = taker.userId := by
  cases side <;> rfl

@[simp]
theorem makeFill_user_opposite :
    (makeFill side taker maker amount dealId).user side.opposite = maker.userId := by
  cases side <;> rfl

/-- The fill the loop makes next. -/
def LoopState.fill (st : LoopState) (rule : MatchRule) (maker : Order) (amount : Mpd) : Fill :=
  makeFill rule.side st.taker maker amount (st.world.dealsIdStart + 1)

/-- The maker as the fill leaves it. -/
def LoopState.makerAfter (st : LoopState) (now : Time) (rule : MatchRule) (maker : Order)
    (amount : Mpd) : Order :=
  MatchEngine.makerAfter maker now rule.side.opposite (st.fill rule maker amount)

/-- The taker as the fill leaves it. -/
def LoopState.takerAfter (st : LoopState) (now : Time) (rule : MatchRule) (maker : Order)
    (amount : Mpd) : Order :=
  st.taker.record now rule.side (st.fill rule maker amount)
    (rule.spends (st.fill rule maker amount))

theorem LoopState.sameKey_makerAfter (st : LoopState) (now : Time) (rule : MatchRule)
    (maker : Order) (amount : Mpd) : maker.SameKey (st.makerAfter now rule maker amount) :=
  ⟨rfl, rfl, rfl, rfl, rfl, rfl⟩

variable [Settings]

/-- The three products of a fill are the true ones, and the fill is sound. -/
theorem makeFill_ok (market : conf.Ok) (takerFee : FeeOk conf taker.takerFee)
    (resting : maker.Resting conf) (finite : amount.isFinite) (pos : 0 < amount.value)
    (digits : FracDigits conf.stockPrec amount.value) {w : World}
    (exact : (w.observeFill (makeFill side taker maker amount dealId)
      (feeRates side taker maker)).ledger.exact = true) :
    (makeFill side taker maker amount dealId).Ok conf ∧
      (mpdMul maker.price amount).value = maker.price.value * amount.value := by
  have dealFinite := Libmpdec.mul_finite resting.priceFinite finite
  obtain ⟨askRate, bidRate⟩ :
      FeeOk conf (feeRates side taker maker).1 ∧ FeeOk conf (feeRates side taker maker).2 := by
    cases side
    · exact ⟨takerFee, resting.makerFee⟩
    · exact ⟨resting.makerFee, takerFee⟩
  obtain ⟨⟨⟨_, deal⟩, askFee⟩, bidFee⟩ : ((w.ledger.exact = true ∧
      (mpdMul maker.price amount).value = maker.price.value * amount.value) ∧
      (mpdMul (mpdMul maker.price amount) (feeRates side taker maker).1).value =
        (mpdMul maker.price amount).value * (feeRates side taker maker).1.value) ∧
      (mpdMul amount (feeRates side taker maker).2).value =
        amount.value * (feeRates side taker maker).2.value := by
    cases side <;> simpa [World.observeFill, makeFill, and_assoc] using exact
  have dealPos : 0 < (mpdMul maker.price amount).value := by
    rw [deal]
    exact mul_pos resting.pricePos pos
  have dealDigits : FracDigits (assetPrec conf.money) (mpdMul maker.price amount).value := by
    rw [deal]
    refine (resting.priceDigits.mul digits).mono ?_
    linarith [market.dealPrec]
  have amountDigits : FracDigits (assetPrec conf.stock) amount.value :=
    digits.mono (by linarith [market.bidFeePrec, takerFee.digits.nonneg])
  have fees : (makeFill side taker maker amount dealId).askFee =
        mpdMul (mpdMul maker.price amount) (feeRates side taker maker).1 ∧
      (makeFill side taker maker amount dealId).bidFee =
        mpdMul amount (feeRates side taker maker).2 := by
    cases side <;> exact ⟨rfl, rfl⟩
  refine ⟨⟨?_, ?_, ?_, ?_, ?_, ?_, ?_⟩, deal⟩
  · rintro (_ | _)
    · simpa [Fill.pays] using finite
    · simpa [Fill.pays] using dealFinite
  · rintro (_ | _)
    · simpa [Fill.pays] using pos
    · simpa [Fill.pays] using dealPos
  · rintro (_ | _)
    · simpa [Fill.pays, MarketConf.gives] using amountDigits
    · simpa [Fill.pays, MarketConf.gives] using dealDigits
  · rintro (_ | _)
    · simpa [Fill.fee, fees.1] using Libmpdec.mul_finite dealFinite askRate.finite
    · simpa [Fill.fee, fees.2] using Libmpdec.mul_finite finite bidRate.finite
  · rintro (_ | _)
    · simpa [Fill.fee, fees.1, askFee] using mul_nonneg dealPos.le askRate.nonneg
    · simpa [Fill.fee, fees.2, bidFee] using mul_nonneg pos.le bidRate.nonneg
  · rintro (_ | _)
    · simpa [Fill.fee, Fill.receives, fees.1, askFee] using
        mul_le_of_le_one_right dealPos.le askRate.lt_one.le
    · simpa [Fill.fee, Fill.receives, fees.2, bidFee] using
        mul_le_of_le_one_right pos.le bidRate.lt_one.le
  · rw [fees.2, bidFee]
    exact (digits.mul bidRate.digits).mono market.bidFeePrec

/-! ## The body of the loop -/

/-- The world of `matchFill` once the deal is published. -/
def openedWorld (real : Bool) (now : Time) (rule : MatchRule) (st : LoopState) (maker : Order)
    (amount : Mpd) : World :=
  (st.world.observeFill (st.fill rule maker amount) (feeRates rule.side st.taker maker)).openDeal
    real now st.market.toMarketConf
    (match rule.side with
      | .ask => st.taker.market
      | .bid => maker.market)
    (st.fill rule maker amount)

/-- The world of `matchFill` before the maker is closed. -/
def tradedWorld (real : Bool) (now : Time) (rule : MatchRule) (st : LoopState) (node : Ref)
    (maker : Order) (amount : Mpd) : World :=
  fillMaker real now rule.side.opposite st.market.toMarketConf
    (fillTaker real now rule st.market.toMarketConf (openedWorld real now rule st maker amount)
      st.taker (st.fill rule maker amount)).2
    node maker (st.fill rule maker amount)

theorem matchFill_eq (real : Bool) (now : Time) (rule : MatchRule) (st : LoopState) (node : Ref)
    (maker : Order) (amount : Mpd) :
    matchFill real now rule st node maker amount =
      { market := (closeMaker real st.market (tradedWorld real now rule st node maker amount) node
          (st.makerAfter now rule maker amount)).1
        world := (closeMaker real st.market (tradedWorld real now rule st node maker amount) node
          (st.makerAfter now rule maker amount)).2
        taker := st.takerAfter now rule maker amount } := rfl

omit [Settings] in
theorem World.observeRecord_sameOrders (w : World) (order : Order) (side : Side) (f : Fill)
    (spent : Mpd) : w.SameOrders (w.observeRecord order side f spent) :=
  ⟨⟨rfl, rfl, rfl, rfl⟩, rfl⟩

theorem fillTaker_sameOrders (real : Bool) (now : Time) (rule : MatchRule) (conf : MarketConf)
    (w : World) (taker : Order) (f : Fill) :
    w.SameOrders (fillTaker real now rule conf w taker f).2 :=
  (w.observeRecord_sameOrders taker rule.side f (rule.spends f)).trans
    (settle_sameOrders _ _ _ _ _ _ _ _)

omit [Settings] [Libmpdec] in
theorem World.SameOrders.store {w w' : World} (same : w.SameOrders w') (ref : Ref)
    (order : Order) : (w.store ref order).SameOrders (w'.store ref order) :=
  ⟨⟨same.nextRef, same.orderIdStart, same.dealsIdStart, same.fills⟩,
    by rw [store_heap, store_heap, same.heap]⟩

theorem fillMaker_sameOrders (real : Bool) (now : Time) (side : Side) (conf : MarketConf)
    (w : World) (node : Ref) (maker : Order) (f : Fill) :
    (w.store node (makerAfter maker now side f)).SameOrders
      (fillMaker real now side conf w node maker f) :=
  (((w.observeRecord_sameOrders maker side f f.amount).trans
    (World.observe_sameOrders _ _ _)).store _ _).trans (settle_sameOrders _ _ _ _ _ _ _ _)

/-- Besides the maker, the fill writes no order; it takes the next deal id. -/
structure World.Traded (w w' : World) (node : Ref) (maker : Order) (f : Fill) : Prop where
  heap : w'.heap = Function.update w.heap node (some maker)
  nextRef : w'.nextRef = w.nextRef
  orderIdStart : w'.orderIdStart = w.orderIdStart
  dealsIdStart : w'.dealsIdStart = f.dealId
  fills : w'.fills = w.fills ++ [f]

omit [Settings] in
theorem openedWorld_sameOrders (real : Bool) (now : Time) (rule : MatchRule) (st : LoopState)
    (maker : Order) (amount : Mpd) :
    World.SameOrders
      { st.world with
        dealsIdStart := (st.fill rule maker amount).dealId
        fills := st.world.fills ++ [st.fill rule maker amount] }
      (openedWorld real now rule st maker amount) := by
  refine World.SameOrders.trans ?_
    ((World.emit_sameOrders _ real _).trans (World.emit_sameOrders _ real _))
  exact ⟨⟨rfl, rfl, rfl, rfl⟩, rfl⟩

theorem tradedWorld_traded (real : Bool) (now : Time) (rule : MatchRule) (st : LoopState)
    (node : Ref) (maker : Order) (amount : Mpd) :
    st.world.Traded (tradedWorld real now rule st node maker amount) node
      (st.makerAfter now rule maker amount) (st.fill rule maker amount) := by
  have paid := (openedWorld_sameOrders real now rule st maker amount).trans
    (fillTaker_sameOrders real now rule st.market.toMarketConf _ st.taker
      (st.fill rule maker amount))
  have traded := (paid.store node (st.makerAfter now rule maker amount)).trans
    (fillMaker_sameOrders real now rule.side.opposite st.market.toMarketConf _ node maker
      (st.fill rule maker amount))
  exact ⟨traded.heap, traded.nextRef, traded.orderIdStart, traded.dealsIdStart, traded.fills⟩

/-! ## The balances of a fill -/

section Balances

variable {w : World} {f : Fill} {market : String}

omit [Settings] in
theorem openedWorld_ledger : (openedWorld real now rule st maker amount).ledger =
    (st.world.observeFill (st.fill rule maker amount)
      (feeRates rule.side st.taker maker)).ledger :=
  (World.emit_ledger _ _ _).trans (World.emit_ledger _ _ _)

omit [Settings] in
theorem openedWorld_ignored : (openedWorld real now rule st maker amount).ignored =
    st.world.ignored :=
  (World.emit_ignored _ _ _).trans (World.emit_ignored _ _ _)

theorem fillTaker_exact (exact : (fillTaker real now rule conf w taker f).2.ledger.exact = true) :
    w.ledger.exact = true ∧
      (mpdSub taker.left (rule.spends f)).value = taker.left.value - (rule.spends f).value := by
  have observed := settle_exact exact
  simp only [World.observeRecord, World.observe_ledger, Ledger.exact_observe] at observed
  exact ⟨observed.1.1.1.1, observed.1.1.1.2⟩

theorem fillTaker_posts (rule : MatchRule) (taker : Order) (market : conf.Ok) (ok : f.Ok conf)
    (sound : w.ledger.Sound)
    (le : (f.pays rule.side).value ≤
      w.ledger.holds ⟨taker.userId, .available, conf.gives rule.side⟩)
    (exact : (fillTaker real now rule conf w taker f).2.ledger.exact = true) :
    w.ledger.Posts (fillTaker real now rule conf w taker f).2.ledger
        (settlement conf taker.userId rule.side .available f) ∧
      (fillTaker real now rule conf w taker f).2.ignored = w.ignored := by
  obtain ⟨posts, ignored⟩ := settle_posts market ok
    (w.observeRecord taker rule.side f (rule.spends f))
    (taker.record now rule.side f (rule.spends f))
    (((sound.observe _ _).observe _ _).observe _ _ |>.observe _ _) le exact
  exact ⟨⟨posts.sound, posts.accounts⟩, ignored⟩

theorem fillMaker_exact
    (exact : (fillMaker real now side conf w node maker f).ledger.exact = true) :
    w.ledger.exact = true ∧
      (mpdSub maker.left f.amount).value = maker.left.value - f.amount.value ∧
      (mpdSub maker.freeze (f.pays side)).value = maker.freeze.value - (f.pays side).value := by
  have observed := settle_exact exact
  simp only [World.observeRecord, World.store_ledger, World.observe_ledger,
    Ledger.exact_observe] at observed
  exact ⟨observed.1.1.1.1.1, observed.1.1.1.1.2, observed.2⟩

theorem fillMaker_posts (side : Side) (maker : Order) (market : conf.Ok) (ok : f.Ok conf)
    (sound : w.ledger.Sound)
    (le : (f.pays side).value ≤ w.ledger.holds ⟨maker.userId, .freeze, conf.gives side⟩)
    (exact : (fillMaker real now side conf w node maker f).ledger.exact = true) :
    w.ledger.Posts (fillMaker real now side conf w node maker f).ledger
        (settlement conf maker.userId side .freeze f) ∧
      (fillMaker real now side conf w node maker f).ignored = w.ignored := by
  obtain ⟨posts, ignored⟩ := settle_posts market ok
    (((w.observeRecord maker side f f.amount).observe (mpdSub maker.freeze (f.pays side))
      (maker.freeze.value - (f.pays side).value)).store node (makerAfter maker now side f))
    (makerAfter maker now side f)
    (((sound.observe _ _).observe _ _).observe _ _ |>.observe _ _ |>.observe _ _) le exact
  exact ⟨⟨posts.sound, posts.accounts⟩, ignored⟩

/-- What a fill posts: the settlements of taker and maker. -/
noncomputable def Fill.posted (conf : MarketConf) (f : Fill) : BalanceKey →₀ ℚ :=
  settlement conf (f.user f.takerSide) f.takerSide .available f +
    settlement conf (f.user f.takerSide.opposite) f.takerSide.opposite .freeze f

omit [Libmpdec] in
/-- The taker's settlement leaves frozen balances alone. -/
theorem settlement_freeze (conf : MarketConf) (userId : ℕ) (side : Side) (f : Fill) (user : ℕ)
    (asset : String) :
    settlement conf userId side .available f ⟨user, .freeze, asset⟩ = 0 := by
  unfold settlement
  rw [Finsupp.add_apply, Finsupp.single_eq_of_ne (by simp), Finsupp.single_eq_of_ne (by simp),
    add_zero]

/-- Until the parties settle, only observations have been made. -/
theorem openedWorld_posts (real : Bool) (now : Time) (rule : MatchRule)
    (sound : st.world.ledger.Sound) (maker : Order) (amount : Mpd) :
    st.world.ledger.Posts (openedWorld real now rule st maker amount).ledger 0 := by
  rw [openedWorld_ledger]
  exact ⟨sound, (add_zero _).symm⟩

/-- While nothing rounds, a fill the taker and the maker can pay for goes
through: no call fails, and the settlements of both are posted. -/
theorem tradedWorld_posts (market : st.market.toMarketConf.Ok)
    (takerFee : FeeOk st.market.toMarketConf st.taker.takerFee)
    (resting : maker.Resting st.market.toMarketConf) (finite : amount.isFinite)
    (pos : 0 < amount.value) (digits : FracDigits st.market.stockPrec amount.value)
    (sound : st.world.ledger.Sound)
    (takerPays : ((st.fill rule maker amount).pays rule.side).value ≤
      st.world.ledger.holds ⟨st.taker.userId, .available, st.market.gives rule.side⟩)
    (makerPays : ((st.fill rule maker amount).pays rule.side.opposite).value ≤
      st.world.ledger.holds ⟨maker.userId, .freeze, st.market.gives rule.side.opposite⟩)
    (exact : (tradedWorld real now rule st node maker amount).ledger.exact = true) :
    st.world.ledger.Posts (tradedWorld real now rule st node maker amount).ledger
        ((st.fill rule maker amount).posted st.market.toMarketConf) ∧
      (tradedWorld real now rule st node maker amount).ignored = st.world.ignored := by
  have paidExact := (fillMaker_exact exact).1
  have openedExact := (fillTaker_exact paidExact).1
  have ok := (makeFill_ok market takerFee resting finite pos digits
    (openedWorld_ledger ▸ openedExact)).1
  have opened := openedWorld_posts real now rule sound maker amount
  obtain ⟨paid, paidIgnored⟩ := fillTaker_posts rule st.taker market ok opened.sound
    (by rwa [opened.holds, Finsupp.zero_apply, add_zero]) paidExact
  obtain ⟨traded, tradedIgnored⟩ := fillMaker_posts rule.side.opposite maker market ok paid.sound
    (by rwa [paid.holds, settlement_freeze, add_zero, opened.holds, Finsupp.zero_apply, add_zero])
    exact
  refine ⟨?_, tradedIgnored.trans (paidIgnored.trans openedWorld_ignored)⟩
  have all := (opened.trans paid).trans traded
  rw [zero_add] at all
  have posted : (st.fill rule maker amount).posted st.market.toMarketConf =
      settlement st.market.toMarketConf st.taker.userId rule.side .available
          (st.fill rule maker amount) +
        settlement st.market.toMarketConf maker.userId rule.side.opposite .freeze
          (st.fill rule maker amount) := by
    simp [Fill.posted, LoopState.fill]
  rw [posted]
  exact all

end Balances

/-! ## Closing the maker -/

section Close

omit [Libmpdec] [Settings] in
/-- Rewriting a resting order without changing its key. -/
theorem BookInv.store {m : Market} {heap : Ref → Option Order} {maker' : Order}
    (inv : BookInv m heap) (rests : m.Rests heap node maker) (keep : maker.SameKey maker') :
    BookInv m (Function.update heap node (some maker')) ∧
      m.Rests (Function.update heap node (some maker')) node maker' := by
  refine ⟨inv.rekey fun {x o} restsX => ?_, Function.update_self .., keep.side ▸ rests.2⟩
  by_cases same : x = node
  · subst same
    obtain rfl := restsX.eq rests.1
    exact ⟨maker', Function.update_self .., keep⟩
  · exact ⟨o, (Function.update_of_ne same _ _).trans restsX.1, .refl o⟩

/-- What any fill leaves behind, whatever the balance calls answer: the maker
is written or gone, every other order and index entry is as before. -/
structure Filled (st st' : LoopState) (node : Ref) (maker : Order) (f : Fill) : Prop where
  conf : st'.market.toMarketConf = st.market.toMarketConf
  nextRef : st'.world.nextRef = st.world.nextRef
  orderIdStart : st'.world.orderIdStart = st.world.orderIdStart
  dealsIdStart : st'.world.dealsIdStart = f.dealId
  fills : st'.world.fills = st.world.fills ++ [f]
  heap : ∀ x, x ≠ node → st'.world.heap x = st.world.heap x
  book : (mpdCmp maker.left mpdZero = 0 ∧
      ∀ side, st'.market.book side = (st.market.book side).erase node) ∨
    (mpdCmp maker.left mpdZero ≠ 0 ∧ st'.market = st.market ∧
      st'.world.heap node = some maker)
  inv : BookInv st'.market st'.world.heap

theorem matchFill_filled (real : Bool) (now : Time) (rule : MatchRule) (amount : Mpd)
    (inv : BookInv st.market st.world.heap) (rests : st.market.Rests st.world.heap node maker) :
    Filled st (matchFill real now rule st node maker amount) node
      (st.makerAfter now rule maker amount) (st.fill rule maker amount) := by
  have traded := tradedWorld_traded real now rule st node maker amount
  obtain ⟨stored, restsStored⟩ :=
    inv.store rests (st.sameKey_makerAfter now rule maker amount)
  rw [← traded.heap] at stored restsStored
  have heap (x : Ref) (differ : x ≠ node) :
      (tradedWorld real now rule st node maker amount).heap x = st.world.heap x := by
    rw [traded.heap, Function.update_of_ne differ]
  rw [matchFill_eq]
  unfold closeMaker
  by_cases spent : mpdCmp (st.makerAfter now rule maker amount).left mpdZero = 0
  · simp only [if_pos spent]
    have announced := World.emit_sameOrders (tradedWorld real now rule st node maker amount) real
      (.orderMessage .finish (st.makerAfter now rule maker amount) st.market.stock st.market.money)
    have finished := orderFinish_finished real (announced.heap.symm ▸ stored)
      (announced.heap.symm ▸ restsStored)
    have counters := announced.toSameCounters.trans finished.toSameCounters
    have kept (x : Ref) (differ : x ≠ node) := (finished.heap x differ).trans
      (congrFun announced.heap x)
    exact
      { conf := finished.conf
        nextRef := counters.nextRef.trans traded.nextRef
        orderIdStart := counters.orderIdStart.trans traded.orderIdStart
        dealsIdStart := counters.dealsIdStart.trans traded.dealsIdStart
        fills := counters.fills.trans traded.fills
        heap := fun x differ => (kept x differ).trans (heap x differ)
        book := Or.inl ⟨spent, finished.book⟩
        inv := stored.erase finished.book kept }
  · simp only [if_neg spent]
    have announced := World.emit_sameOrders (tradedWorld real now rule st node maker amount) real
      (.orderMessage .update (st.makerAfter now rule maker amount) st.market.stock st.market.money)
    exact
      { conf := rfl
        nextRef := announced.nextRef.trans traded.nextRef
        orderIdStart := announced.orderIdStart.trans traded.orderIdStart
        dealsIdStart := announced.dealsIdStart.trans traded.dealsIdStart
        fills := announced.fills.trans traded.fills
        heap := fun x differ => (congrFun announced.heap x).trans (heap x differ)
        book := Or.inr ⟨spent, rfl, (congrFun announced.heap node).trans restsStored.1⟩
        inv := announced.heap.symm ▸ stored }

/-- A fill that taker and maker can pay for, of an amount the market can
settle. -/
structure Payable (st : LoopState) (rule : MatchRule) (maker : Order) (amount : Mpd) : Prop where
  market : st.market.toMarketConf.Ok
  takerFee : FeeOk st.market.toMarketConf st.taker.takerFee
  resting : maker.Resting st.market.toMarketConf
  side : maker.side = rule.side.opposite
  finite : amount.isFinite
  pos : 0 < amount.value
  le_left : amount.value ≤ maker.left.value
  digits : FracDigits st.market.stockPrec amount.value
  takerPays : ((st.fill rule maker amount).pays rule.side).value ≤
    st.world.ledger.holds ⟨st.taker.userId, .available, st.market.gives rule.side⟩
  makerPays : maker.freeze.value ≤
    st.world.ledger.holds ⟨maker.userId, .freeze, st.market.gives maker.side⟩

/-- What did not round by the end did not round at the beginning. -/
theorem tradedWorld_opened
    (exact : (tradedWorld real now rule st node maker amount).ledger.exact = true) :
    (openedWorld real now rule st maker amount).ledger.exact = true :=
  (fillTaker_exact (fillMaker_exact exact).1).1

theorem Payable.fill_ok (pay : Payable st rule maker amount)
    (exact : (openedWorld real now rule st maker amount).ledger.exact = true) :
    (st.fill rule maker amount).Ok st.market.toMarketConf ∧
      (mpdMul maker.price amount).value = maker.price.value * amount.value :=
  makeFill_ok pay.market pay.takerFee pay.resting pay.finite pay.pos pay.digits
    (openedWorld_ledger ▸ exact)

/-- What the maker pays is what its frozen amount falls by. -/
theorem Payable.maker_pays (pay : Payable st rule maker amount)
    (exact : (openedWorld real now rule st maker amount).ledger.exact = true) :
    ((st.fill rule maker amount).pays rule.side.opposite).value =
      match maker.side with
      | .ask => amount.value
      | .bid => maker.price.value * amount.value := by
  have deal := (pay.fill_ok exact).2
  rw [pay.side]
  cases rule.side with
  | ask => simpa [LoopState.fill, Fill.pays, Side.opposite] using deal
  | bid => simp [LoopState.fill, Fill.pays, Side.opposite]

theorem Payable.maker_pays_le (pay : Payable st rule maker amount)
    (exact : (openedWorld real now rule st maker amount).ledger.exact = true) :
    ((st.fill rule maker amount).pays rule.side.opposite).value ≤ maker.freeze.value := by
  rw [pay.maker_pays exact, pay.resting.freeze]
  unfold Order.frozen
  cases maker.side with
  | ask => exact pay.le_left
  | bid => exact mul_le_mul_of_nonneg_left pay.le_left pay.resting.pricePos.le

/-- A payable fill goes through. -/
theorem Payable.traded_posts (pay : Payable st rule maker amount)
    (sound : st.world.ledger.Sound)
    (exact : (tradedWorld real now rule st node maker amount).ledger.exact = true) :
    st.world.ledger.Posts (tradedWorld real now rule st node maker amount).ledger
        ((st.fill rule maker amount).posted st.market.toMarketConf) ∧
      (tradedWorld real now rule st node maker amount).ignored = st.world.ignored :=
  tradedWorld_posts pay.market pay.takerFee pay.resting pay.finite pay.pos pay.digits sound
    pay.takerPays ((pay.maker_pays_le (tradedWorld_opened exact)).trans
      (pay.side ▸ pay.makerPays)) exact

theorem Payable.makerAfter_left (pay : Payable st rule maker amount)
    (exact : (tradedWorld real now rule st node maker amount).ledger.exact = true) :
    (st.makerAfter now rule maker amount).left.isFinite ∧
      (st.makerAfter now rule maker amount).left.value = maker.left.value - amount.value := by
  have left := (fillMaker_exact exact).2.1
  simp only [LoopState.fill, makeFill_amount] at left
  have same : (st.makerAfter now rule maker amount).left = mpdSub maker.left amount := by
    simp [LoopState.makerAfter, makerAfter, Order.record, LoopState.fill]
  rw [same]
  exact ⟨Libmpdec.sub_finite pay.resting.leftFinite pay.finite, left⟩

theorem Payable.makerAfter_freeze (pay : Payable st rule maker amount)
    (exact : (tradedWorld real now rule st node maker amount).ledger.exact = true) :
    (st.makerAfter now rule maker amount).freeze.isFinite ∧
      (st.makerAfter now rule maker amount).freeze.value =
        maker.freeze.value - ((st.fill rule maker amount).pays rule.side.opposite).value ∧
      (st.makerAfter now rule maker amount).freeze.value =
        (st.makerAfter now rule maker amount).frozen := by
  have freeze := (fillMaker_exact exact).2.2
  have pays := pay.maker_pays (tradedWorld_opened exact)
  have left := (pay.makerAfter_left exact).2
  have ok := (pay.fill_ok (tradedWorld_opened exact)).1
  refine ⟨Libmpdec.sub_finite pay.resting.freezeFinite (ok.paysFinite _), freeze, ?_⟩
  refine freeze.trans ?_
  rw [pays, pay.resting.freeze]
  unfold Order.frozen
  rw [left]
  have side : (st.makerAfter now rule maker amount).side = maker.side := rfl
  have price : (st.makerAfter now rule maker amount).price = maker.price := rfl
  rw [side, price]
  cases maker.side with
  | ask => rfl
  | bid => ring

/-- A maker that is used up has nothing frozen any more. -/
theorem Payable.makerAfter_spent (pay : Payable st rule maker amount)
    (exact : (tradedWorld real now rule st node maker amount).ledger.exact = true)
    (spent : mpdCmp (st.makerAfter now rule maker amount).left mpdZero = 0) :
    (st.makerAfter now rule maker amount).freeze.value = 0 := by
  have leftFinite := (pay.makerAfter_left exact).1
  rw [mpdCmp_eq_zero leftFinite mpdZero_isFinite, mpdZero_value] at spent
  rw [(pay.makerAfter_freeze exact).2.2]
  unfold Order.frozen
  rw [spent]
  split <;> simp

theorem Payable.makerAfter_resting (pay : Payable st rule maker amount)
    (exact : (tradedWorld real now rule st node maker amount).ledger.exact = true)
    (remains : 0 < (st.makerAfter now rule maker amount).left.value) :
    (st.makerAfter now rule maker amount).Resting st.market.toMarketConf := by
  obtain ⟨leftFinite, left⟩ := pay.makerAfter_left exact
  obtain ⟨freezeFinite, _, freeze⟩ := pay.makerAfter_freeze exact
  have before := pay.resting
  refine { before with
    leftFinite := leftFinite
    leftPos := remains
    left_le := ?_
    leftDigits := ?_
    freezeFinite := freezeFinite
    freeze := freeze }
  · rw [left]
    change _ ≤ maker.amount.value
    linarith [before.left_le, pay.pos]
  · rw [left]
    exact before.leftDigits.sub pay.digits

/-- What a payable fill does while nothing rounds: no call fails, the fill is
posted, the maker keeps what is left of it frozen, and the indexes stay in step. -/
structure Settled (st st' : LoopState) (node : Ref) (maker maker' : Order) (f : Fill) : Prop where
  index : IndexInv st'.market st'.world.heap
  ignored : st'.world.ignored = st.world.ignored
  posts : st.world.ledger.Posts st'.world.ledger (f.posted st.market.toMarketConf)
  frozen : ∀ user asset, st'.market.frozen st'.world.heap user asset =
    st.market.frozen st.world.heap user asset -
      if user = maker.userId then
        if st.market.gives maker.side = asset then (f.pays maker.side).value else 0
      else 0
  rests : ∀ {x o}, st'.market.Rests st'.world.heap x o →
    (x ≠ node ∧ st.market.Rests st.world.heap x o) ∨
      (x = node ∧ o = maker' ∧ maker'.Resting st.market.toMarketConf)

omit [Libmpdec] [Settings] in
theorem IndexInv.store {m : Market} {heap : Ref → Option Order} {maker' : Order}
    (inv : IndexInv m heap) (rests : m.Rests heap node maker) (keep : maker.SameKey maker') :
    IndexInv m (Function.update heap node (some maker')) := by
  refine inv.rekey fun {x o} restsX => ?_
  by_cases same : x = node
  · subst same
    obtain rfl := restsX.eq rests.1
    exact ⟨maker', Function.update_self .., keep⟩
  · exact ⟨o, (Function.update_of_ne same _ _).trans restsX.1, .refl o⟩

theorem orderFinish_exact {m : Market} {w : World}
    (exact : (orderFinish real m w node).2.2.ledger.exact = true) : w.ledger.exact = true := by
  have removed (m : Market) (w : World) (order : Order) :
      (orderRemove real m w order node).2.ledger = w.ledger := by
    simp [orderRemove]
  simp only [orderFinish] at exact
  split at exact
  · exact exact
  · split at exact
    · split at exact
      · exact balanceMove_exact exact
      · rw [removed] at exact
        exact balanceMove_exact exact
    · rwa [removed] at exact

theorem closeMaker_exact {m : Market} {w : World}
    (exact : (closeMaker real m w node maker).2.ledger.exact = true) :
    w.ledger.exact = true := by
  simp only [closeMaker] at exact
  split at exact
  · have announced := orderFinish_exact exact
    rwa [World.emit_ledger] at announced
  · rwa [World.emit_ledger] at exact

theorem matchFill_exact
    (exact : (matchFill real now rule st node maker amount).world.ledger.exact = true) :
    (tradedWorld real now rule st node maker amount).ledger.exact = true :=
  closeMaker_exact exact

theorem matchFill_settled (pay : Payable st rule maker amount)
    (sound : st.world.ledger.Sound) (inv : IndexInv st.market st.world.heap)
    (rests : st.market.Rests st.world.heap node maker)
    (exact : (matchFill real now rule st node maker amount).world.ledger.exact = true) :
    Settled st (matchFill real now rule st node maker amount) node maker
      (st.makerAfter now rule maker amount) (st.fill rule maker amount) := by
  have tradedExact := matchFill_exact exact
  have traded := tradedWorld_traded real now rule st node maker amount
  obtain ⟨leftFinite, left⟩ := pay.makerAfter_left tradedExact
  obtain ⟨freezeFinite, freeze, _⟩ := pay.makerAfter_freeze tradedExact
  have keep := st.sameKey_makerAfter now rule maker amount
  obtain ⟨posts, ignored⟩ := pay.traded_posts sound tradedExact
  have stored := inv.store rests keep
  have restsStored := (inv.toBookInv.store rests keep).2
  rw [← traded.heap] at stored restsStored
  have heap (x : Ref) (differ : x ≠ node) :
      (tradedWorld real now rule st node maker amount).heap x = st.world.heap x := by
    rw [traded.heap, Function.update_of_ne differ]
  have frozenStored (user : ℕ) (asset : String) :
      st.market.frozen (tradedWorld real now rule st node maker amount).heap user asset =
        st.market.frozen st.world.heap user asset -
          if user = maker.userId then
            if st.market.gives maker.side = asset then
              ((st.fill rule maker amount).pays maker.side).value
            else 0
          else 0 := by
    rw [Market.frozen_store inv rests restsStored.1 keep.side heap, freeze, pay.side]
    split <;> [split; skip] <;> ring
  rw [matchFill_eq]
  unfold closeMaker
  by_cases spent : mpdCmp (st.makerAfter now rule maker amount).left mpdZero = 0
  · simp only [if_pos spent]
    have zero := pay.makerAfter_spent tradedExact spent
    have announced := World.emit_sameOrders (tradedWorld real now rule st node maker amount) real
      (.orderMessage .finish (st.makerAfter now rule maker amount) st.market.stock st.market.money)
    obtain ⟨m', w', finish, ledger, finishIgnored, removes, inv', freed⟩ :=
      orderFinish_released real (announced.heap.symm ▸ stored) (announced.heap.symm ▸ restsStored)
        freezeFinite zero.le
    have finished := orderFinish_finished real (announced.heap.symm ▸ stored.toBookInv)
      (announced.heap.symm ▸ restsStored)
    rw [finish] at finished
    have kept (x : Ref) (differ : x ≠ node) :
        w'.heap x = (tradedWorld real now rule st node maker amount).heap x :=
      (finished.heap x differ).trans (congrFun announced.heap x)
    rw [finish]
    refine ⟨inv', ?_, ?_, ?_, ?_⟩
    · rw [finishIgnored, World.emit_ignored, ignored]
    · simp only [ledger, World.emit_ledger]
      exact posts
    · intro user asset
      rw [Market.frozen_removes stored removes restsStored kept, frozenStored]
      simp [Order.freezes, zero]
    · intro x o restsX
      have mem := restsX.2
      rw [removes.book, stored.toBookInv.mem_erase] at mem
      exact Or.inl ⟨mem.1, ((kept x mem.1).trans (heap x mem.1)).symm.trans restsX.1, mem.2⟩
  · simp only [if_neg spent]
    have remains : 0 < (st.makerAfter now rule maker amount).left.value := by
      rw [mpdCmp_eq_zero leftFinite mpdZero_isFinite, mpdZero_value] at spent
      refine lt_of_le_of_ne ?_ (Ne.symm spent)
      rw [left]
      linarith [pay.le_left]
    refine ⟨?_, ?_, ?_, ?_, ?_⟩
    · rw [World.emit_heap]
      exact stored
    · rw [World.emit_ignored, ignored]
    · rw [World.emit_ledger]
      exact posts
    · intro user asset
      rw [World.emit_heap]
      exact frozenStored user asset
    · intro x o restsX
      rw [World.emit_heap] at restsX
      by_cases same : x = node
      · subst same
        exact Or.inr ⟨rfl, restsX.eq restsStored.1, pay.makerAfter_resting tradedExact remains⟩
      · exact Or.inl ⟨same, (heap x same).symm.trans restsX.1, restsX.2⟩

end Close

end ViabtcServer.MatchEngine
