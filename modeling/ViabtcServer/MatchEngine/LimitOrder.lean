import ViabtcServer.MatchEngine.Command

/-!
# Limit orders

A limit order is refused without effect, or runs its loop and is put to rest
with what is left of it. It rests only when nothing on the other side crosses
it.
-/

namespace ViabtcServer.MatchEngine

open Decimal Container

variable [Libmpdec] [Settings] {m m' : Market} {w w' : World} {order o : Order} {ref : Ref}
  {held : ℕ → String → ℚ} {real : Bool} {now : Time} {fuel : ℕ}

/-! ## The rule -/

/-- The rule of a limit order. -/
def limitRule : Side → MatchRule
  | .ask => limitAskRule
  | .bid => limitBidRule

omit [Settings] in
@[simp]
theorem limitRule_side (side : Side) : (limitRule side).side = side := by
  cases side <;> rfl

omit [Settings] in
theorem limitRule_volume (side : Side) : (limitRule side).volume = restVolume := by
  cases side <;> rfl

omit [Settings] in
theorem limitRule_spends (side : Side) : (limitRule side).spends = Fill.amount := by
  cases side <;> rfl

omit [Settings] in
theorem limitRule_sane (side : Side) : (limitRule side).Sane := by
  cases side
  · exact limitAskRule_sane
  · exact limitBidRule_sane

omit [Settings] in
/-- A limit order stops at the first maker served after its own price would be. -/
theorem limitRule_stops {side : Side} {taker maker : Order} (ft : taker.price.isFinite)
    (fm : maker.price.isFinite) : (limitRule side).stops taker maker = true ↔
      side.opposite.rank taker.price.value < side.opposite.rank maker.price.value := by
  cases side with
  | ask =>
      simp only [limitRule, limitAskRule, decide_eq_true_eq, gt_iff_lt, mpdCmp_gt_zero ft fm,
        Side.opposite, Side.rank, neg_lt_neg_iff]
  | bid =>
      simp only [limitRule, limitBidRule, decide_eq_true_eq, mpdCmp_lt_zero ft fm, Side.opposite,
        Side.rank]

omit [Settings] in
/-- A limit taker needs what would be frozen for what is left of it. -/
theorem limitRule_fair (side : Side) : ∃ ok need, (limitRule side).Fair ok need ∧
    (∀ {conf : MarketConf} {taker : Order}, BidTaker conf taker → ok conf taker) ∧
    (∀ {conf : MarketConf} {taker : Order}, ok conf taker → StockTaker conf taker) ∧
    ∀ taker : Order, taker.side = side → need taker = taker.frozen := by
  cases side with
  | ask =>
      refine ⟨_, _, limitAskRule_fair, BidTaker.toStockTaker, id, fun taker side => ?_⟩
      simp [Order.frozen, side]
  | bid =>
      refine ⟨_, _, limitBidRule_fair, id, BidTaker.toStockTaker, fun taker side => ?_⟩
      simp [Order.frozen, side]

/-- Where a limit order starts matching. -/
def limitStart (now : Time) (m : Market) (w : World) (userId : ℕ) (side : Side)
    (amount price takerFee makerFee : Mpd) (source : String) : LoopState :=
  let w := w.observeRequire side amount price
  orderStart m w (newOrder now m w .limit userId side amount price takerFee makerFee source)

/-- A limit order is refused, or runs its loop and rests or is finished. -/
theorem marketPutLimitOrder_cases {userId : ℕ} {side : Side}
    {amount price takerFee makerFee : Mpd} {source : String} {outcome : Outcome}
    (run : marketPutLimitOrder real now fuel m w userId side amount price takerFee makerFee source
      = some outcome) :
    (∃ code, (code = -1 ∨ code = -2) ∧ outcome = .refuse code m w) ∨
      (lacks w.ledger ⟨userId, .available, m.gives side⟩ (limitRequire side amount price) = false ∧
        ¬ mpdCmp amount m.minAmount < 0 ∧
        ∃ st', execute real now fuel (limitRule side)
            (limitStart now m w userId side amount price takerFee makerFee source) = some st' ∧
          outcome = restOrFinish real st') := by
  simp only [marketPutLimitOrder] at run
  split at run
  · exact Or.inl ⟨-1, Or.inl rfl, (Option.some.inj run).symm⟩
  · rename_i covered
    split at run
    · exact Or.inl ⟨-2, Or.inr rfl, (Option.some.inj run).symm⟩
    · rename_i enough
      obtain ⟨st', executed, rfl⟩ := Option.map_eq_some_iff.mp run
      refine Or.inr ⟨Bool.eq_false_iff.mpr covered, enough, st', ?_, rfl⟩
      rw [← executed]
      cases side <;> rfl

omit [Libmpdec] [Settings] in
/-- In a sorted book nothing is served before its head. -/
theorem BookInv.head_first {side : Side} {node : Ref} {tail : List Ref} {heap : Ref → Option Order}
    {maker : Order} (inv : BookInv m heap) (book : m.book side = node :: tail)
    (head : m.Rests heap node maker) (headSide : maker.side = side) (rests : m.Rests heap ref o)
    (sameSide : o.side = side) : side.rank maker.price.value ≤ side.rank o.price.value := by
  have mem : ref ∈ node :: tail := by
    rw [← book, ← sameSide]
    exact rests.2
  rcases List.mem_cons.mp mem with rfl | mem
  · rw [head.eq rests.1]
  · have sorted := inv.sorted side
    rw [book] at sorted
    have before := (List.pairwise_cons.mp sorted).1 ref mem
    rw [priorityAt_of_some head.1, priorityAt_of_some rests.1] at before
    unfold Order.priority at before
    rw [Prod.Lex.toLex_lt_toLex, headSide, sameSide] at before
    rcases before with lt | ⟨eq, _⟩
    · exact lt.le
    · exact eq.le

omit [Settings] in
theorem Ends.emit {rule : MatchRule} {rest : List Ref} {st : LoopState} (ends : Ends rule rest st)
    (real : Bool) (output : Output) :
    Ends rule rest { st with world := st.world.emit real output } := by
  cases real <;> exact ends

omit [Settings] in
/-- When a limit order wants more, no order on the other side crosses it. -/
theorem ends_apart {side : Side} {st : LoopState} (index : BookInv st.market st.world.heap)
    (ends : Ends (limitRule side) (st.market.book side.opposite) st)
    (wants : mpdCmp st.taker.left mpdZero ≠ 0) (finite : st.taker.price.isFinite)
    (rests : st.market.Rests st.world.heap ref o) (other : o.side = side.opposite) :
    side.opposite.rank st.taker.price.value < side.opposite.rank o.price.value := by
  rcases ends with empty | finished | ⟨node, tail, maker, book, head, headSide, stops⟩
  · have mem := rests.2
    rw [other, empty] at mem
    cases mem
  · exact absurd finished wants
  · rw [limitRule_side] at headSide
    have mem : node ∈ st.market.book side.opposite := by
      rw [book]
      exact List.mem_cons_self
    obtain ⟨maker', listed⟩ := index.listed mem
    obtain rfl := head.eq listed.found
    rw [limitRule_stops finite listed.finite] at stops
    exact stops.trans_le (index.head_first book head headSide rests other)

/-- The decimals of a well formed limit order, as the handlers admit them. -/
structure LimitTerms (conf : MarketConf) (amount price takerFee makerFee : Mpd) : Prop where
  amountFinite : amount.isFinite
  amountPos : 0 < amount.value
  amountDigits : FracDigits conf.stockPrec amount.value
  priceFinite : price.isFinite
  pricePos : 0 < price.value
  priceDigits : FracDigits conf.moneyPrec price.value
  takerFee : FeeOk conf takerFee
  makerFee : FeeOk conf makerFee

omit [Settings] in
theorem World.observeRequire_observed (w : World) (side : Side) (amount price : Mpd) :
    w.Observed (w.observeRequire side amount price) := by
  cases side
  · exact .refl w
  · exact w.observe_observed _ _

/-! ## The command -/

section Limit

variable {userId : ℕ} {side : Side} {amount price takerFee makerFee : Mpd} {source : String}

theorem limitStart_trading {ok : MarketConf → Order → Prop} {need : Order → ℚ}
    (takes : ∀ {conf : MarketConf} {taker : Order}, BidTaker conf taker → ok conf taker)
    (needs : ∀ taker : Order, taker.side = side → need taker = taker.frozen)
    (inv : MarketInv m w) (sound : w.ledger.Sound) (backed : Backed held m w)
    (terms : LimitTerms m.toMarketConf amount price takerFee makerFee)
    (covered : lacks w.ledger ⟨userId, .available, m.gives side⟩ (limitRequire side amount price) =
      false)
    (exact : (limitStart now m w userId side amount price takerFee makerFee
      source).world.ledger.exact = true) :
    Trading (limitRule side) ok need held
      (limitStart now m w userId side amount price takerFee makerFee source) := by
  refine orderStart_trading (w.observeRequire_observed side amount price) inv sound backed
    (takes ⟨⟨⟨terms.amountFinite, terms.amountPos.le⟩, terms.amountDigits⟩, terms.priceFinite,
      terms.pricePos⟩) terms.takerFee ?_
  rw [limitRule_side, needs _ rfl]
  -- what was tested is what the whole amount would freeze
  have required : (limitRequire side amount price).isFinite ∧
      (limitRequire side amount price).value =
        (newOrder now m (w.observeRequire side amount price) .limit userId side amount price
          takerFee makerFee source).frozen := by
    cases side with
    | ask => exact ⟨terms.amountFinite, rfl⟩
    | bid =>
        simp only [limitStart, orderStart, World.observeRequire, World.observe_ledger,
          Ledger.exact_observe] at exact
        refine ⟨Libmpdec.mul_finite terms.amountFinite terms.priceFinite, exact.2.trans ?_⟩
        simp only [Order.frozen, newOrder]
        ring
  rw [← required.2]
  exact lacks_covers sound required.1 covered

/-- A loop that ends without rounding started within the invariant. -/
theorem limitStart_trading_of_run {ok : MarketConf → Order → Prop} {need : Order → ℚ}
    {st' : LoopState} (fair : (limitRule side).Fair ok need)
    (takes : ∀ {conf : MarketConf} {taker : Order}, BidTaker conf taker → ok conf taker)
    (needs : ∀ taker : Order, taker.side = side → need taker = taker.frozen)
    (inv : MarketInv m w) (sound : w.ledger.Sound) (backed : Backed held m w)
    (terms : LimitTerms m.toMarketConf amount price takerFee makerFee)
    (covered : lacks w.ledger ⟨userId, .available, m.gives side⟩ (limitRequire side amount price) =
      false)
    (executed : execute real now fuel (limitRule side)
      (limitStart now m w userId side amount price takerFee makerFee source) = some st')
    (exact : st'.world.ledger.exact = true) :
    Trading (limitRule side) ok need held
      (limitStart now m w userId side amount price takerFee makerFee source) := by
  have observed := w.observeRequire_observed side amount price
  have starts : Starts m w (limitStart now m w userId side amount price takerFee makerFee source) :=
    orderStart_starts observed (congrArg (· + 1) observed.orderIdStart)
  have startIndex : IndexInv
      (limitStart now m w userId side amount price takerFee makerFee source).market
      (limitStart now m w userId side amount price takerFee makerFee source).world.heap := by
    rw [starts.market, starts.heap]
    exact inv.index
  exact limitStart_trading takes needs inv sound backed terms covered
    (execute_exact fair.toSane startIndex.toBookInv executed exact)

omit [Libmpdec] in
/-- The address and the id of the order are new. -/
theorem Trading.unused {rule : MatchRule} {ok : MarketConf → Order → Prop} {need : Order → ℚ}
    {st st' : LoopState} (inv : MarketInv m w) (starts : Starts m w st)
    (trading : Trading rule ok need held st') (progress : Progress rule st st') :
    (∀ side, st'.world.nextRef ∉ st'.market.book side) ∧
      ∀ {x o}, st'.market.Rests st'.world.heap x o → o.id ≠ st'.taker.id := by
  have nextRef : st'.world.nextRef = w.nextRef := progress.nextRef.trans starts.nextRef
  have takerId : st'.taker.id = w.orderIdStart + 1 := progress.taker.id.trans starts.takerId
  have older {x : Ref} {o : Order} (rests : st'.market.Rests st'.world.heap x o) :
      x < w.nextRef ∧ o.id ≤ w.orderIdStart := by
    obtain ⟨o₀, before, keep⟩ := progress.rested starts rests
    rw [keep.id]
    exact inv.below before
  constructor
  · intro side mem
    obtain ⟨o, rests, _⟩ := trading.index.rests_of_mem mem
    exact (older rests).1.ne nextRef
  · intro x o rests
    have := (older rests).2
    omega

omit [Libmpdec] in
/-- What an order freezes when it comes to rest backs it. -/
theorem Backed.adds {m' : Market} {w' : World} {amount : ℚ} (backed : Backed held m w)
    (inv : IndexInv m w.heap) (index : IndexInv m' w'.heap) (adds : m.Adds m' ref order)
    (found : w'.heap ref = some order) (unused : ∀ side, ref ∉ m.book side)
    (same : ∀ x, x ≠ ref → w'.heap x = w.heap x) (freeze : order.freeze.value = amount)
    (posts : w.ledger.Posts w'.ledger
      (Finsupp.single ⟨order.userId, .freeze, m.gives order.side⟩ amount -
        Finsupp.single ⟨order.userId, .available, m.gives order.side⟩ amount)) :
    Backed held m' w' := by
  intro user asset
  rw [posts.holds, backed user asset, Market.frozen_adds inv index adds found unused same]
  unfold Order.freezes
  rw [freeze, Finsupp.sub_apply, single_type_ne (show BalanceType.freeze ≠ .available by decide),
    sub_zero]
  by_cases own : user = order.userId
  · by_cases sameAsset : m.gives order.side = asset
    · subst own sameAsset
      rw [Finsupp.single_eq_same, if_pos rfl, if_pos rfl]
      ring
    · rw [if_pos own, if_neg sameAsset, Finsupp.single_eq_of_ne (by simp [Ne.symm sameAsset])]
      ring
  · rw [if_neg own, Finsupp.single_eq_of_ne (by simp [own])]
    ring

/-- An order that wants more is put to rest without crossing the other side. -/
theorem rest_marketStep {ok : MarketConf → Order → Prop} {need : Order → ℚ} {st st' : LoopState}
    (inv : MarketInv m w) (starts : Starts m w st)
    (trading : Trading (limitRule side) ok need held st')
    (progress : Progress (limitRule side) st st') (takerSide : st.taker.side = side)
    (opened : st'.taker.Open m.toMarketConf)
    (cover : st'.taker.frozen ≤
      st'.world.ledger.holds ⟨st'.taker.userId, .available, m.gives side⟩)
    (ends : Ends (limitRule side) (st'.market.book side.opposite) st')
    (wants : mpdCmp st'.taker.left mpdZero ≠ 0)
    (exact : (orderPut st'.market st'.world st'.taker).2.2.ledger.exact = true) :
    MarketStep held m (orderPut st'.market st'.world st'.taker).2.1 w
        (orderPut st'.market st'.world st'.taker).2.2 ∧
      OrderPosts m.toMarketConf (limitRule side) st.taker.userId w
        (orderPut st'.market st'.world st'.taker).2.2 ∧
      ∀ {x o}, (orderPut st'.market st'.world st'.taker).2.1.Rests
          (orderPut st'.market st'.world st'.taker).2.2.heap x o →
        o = st'.taker.placed ∨ st'.market.Rests st'.world.heap x o := by
  have step := trading.marketStep inv starts progress
  have sideEq : st'.taker.side = side := progress.taker.side.trans takerSide
  have nextRef : st'.world.nextRef = w.nextRef := progress.nextRef.trans starts.nextRef
  obtain ⟨unused, fresh⟩ := trading.unused inv starts progress
  have takerId : st'.taker.id = w.orderIdStart + 1 := progress.taker.id.trans starts.takerId
  obtain ⟨adds, index, heap, nextRef', orderId', fills', ignored', placed, posts⟩ :=
    orderPut_posts trading.market trading.index (step.conf ▸ opened) unused fresh trading.sound
      (by rw [sideEq, step.conf]; exact cover) exact
  generalize orderPut st'.market st'.world st'.taker = out at *
  have found : out.2.2.heap st'.world.nextRef = some st'.taker.placed := by
    rw [heap, Function.update_self]
  have same (x : Ref) (differ : x ≠ st'.world.nextRef) : out.2.2.heap x = st'.world.heap x := by
    rw [heap, Function.update_of_ne differ]
  have cases_ {x : Ref} {o : Order} (rests : out.2.1.Rests out.2.2.heap x o) :
      (x = st'.world.nextRef ∧ o = st'.taker.placed) ∨ st'.market.Rests st'.world.heap x o := by
    rcases (adds.rests found).mp rests with new | rests
    · exact Or.inl new
    · refine Or.inr ⟨?_, rests.2⟩
      rw [← same x (fun eq => unused _ (eq ▸ rests.2))]
      exact rests.1
  have conf : out.2.1.toMarketConf = m.toMarketConf := adds.conf.trans step.conf
  have apart {x : Ref} {o : Order} (rests : st'.market.Rests st'.world.heap x o)
      (other : o.side = side.opposite) :=
    ends_apart trading.index.toBookInv ends wants opened.priceFinite rests other
  refine ⟨⟨conf, ⟨?_, index, ?_, ?_, ?_⟩, posts.sound, ?_, ?_, ?_, ?_, ?_, ?_⟩, ?_,
    fun rests => (cases_ rests).imp And.right id⟩
  · rw [conf]
    exact inv.ok
  · intro x o rests
    rw [conf]
    rcases cases_ rests with ⟨_, rfl⟩ | rests
    · exact step.conf ▸ placed
    · exact step.conf ▸ trading.resting rests
  · intro x o rests
    rw [nextRef', orderId']
    rcases cases_ rests with ⟨rfl, rfl⟩ | rests
    · refine ⟨Nat.lt_succ_self _, ?_⟩
      rw [progress.orderIdStart, starts.orderId]
      exact takerId.le
    · have below := step.inv.below rests
      exact ⟨below.1.trans (Nat.lt_succ_self _), below.2⟩
  · intro x y a b ra rb sa sb
    rcases cases_ ra with ⟨_, rfl⟩ | ra <;> rcases cases_ rb with ⟨_, rfl⟩ | rb
    · exact absurd (sa.symm.trans sb) (by decide)
    · have askSide : side = .ask := sideEq.symm.trans sa
      subst askSide
      exact neg_lt_neg_iff.mp (apart rb sb)
    · have bidSide : side = .bid := sideEq.symm.trans sb
      subst bidSide
      exact apart ra sa
    · exact step.inv.uncrossed ra rb sa sb
  · exact step.backed.adds trading.index index adds found unused same placed.freeze posts
  · exact ignored'.trans step.ignored
  · rw [nextRef']
    exact step.nextRef_le.trans (Nat.le_succ _)
  · rw [orderId']
    exact step.orderId_le
  · intro x below absent
    rw [same x fun eq => below.ne (eq.trans nextRef)]
    exact step.heap x below absent
  · intro x o rests
    rcases cases_ rests with ⟨rfl, rfl⟩ | rests
    · refine Or.inr ⟨nextRef.ge, ?_⟩
      change w.orderIdStart < st'.taker.id
      omega
    · exact step.rests rests
  · obtain ⟨new, moved, fills, by_, accounts⟩ := progress.orderPosts starts
    refine ⟨new, moved + st'.taker.frozen, fills'.trans fills, by_, ?_⟩
    rw [posts.accounts, accounts, limitRule_side, sideEq, progress.taker.userId, step.conf,
      Finsupp.single_add, Finsupp.single_add]
    abel

theorem restOrFinish_exact {st : LoopState}
    (exact : (restOrFinish real st).world.ledger.exact = true) :
    st.world.ledger.exact = true := by
  simp only [restOrFinish] at exact
  split at exact
  · simpa using exact
  · have put := orderPut_exact exact
    simpa using put

/-- What is left of a limit order can rest. -/
theorem limitTaker_open {ok : MarketConf → Order → Prop} {need : Order → ℚ} {st' : LoopState}
    (fair : (limitRule side).Fair ok need)
    (stock : ∀ {conf : MarketConf} {taker : Order}, ok conf taker → StockTaker conf taker)
    (terms : LimitTerms m.toMarketConf amount price takerFee makerFee)
    (trading : Trading (limitRule side) ok need held st')
    (progress : Progress (limitRule side)
      (limitStart now m w userId side amount price takerFee makerFee source) st')
    (wants : mpdCmp st'.taker.left mpdZero ≠ 0) : st'.taker.Open m.toMarketConf := by
  have takerSane := fair.taker trading.taker
  have conf : st'.market.toMarketConf = m.toMarketConf := progress.conf
  have amountEq : st'.taker.amount = amount := progress.taker.amount
  exact
    { limit := progress.taker.type
      market := progress.taker.market
      priceFinite := progress.taker.price ▸ terms.priceFinite
      pricePos := progress.taker.price ▸ terms.pricePos
      priceDigits := progress.taker.price ▸ terms.priceDigits
      amountFinite := amountEq ▸ terms.amountFinite
      amountDigits := amountEq ▸ terms.amountDigits
      leftFinite := takerSane.finite
      leftPos := takerSane.pos wants
      left_le := amountEq ▸ progress.left_le
      leftDigits := conf ▸ (stock trading.taker).digits
      takerFee := progress.taker.takerFee ▸ terms.takerFee
      makerFee := progress.taker.makerFee ▸ terms.makerFee }

/-- A limit order that is served keeps the market in order and posts its fills and
what it freezes. The orders that rest afterwards are the makers left and what is
left of the order itself. -/
theorem limitOrder_served {ok : MarketConf → Order → Prop} {need : Order → ℚ} {st' : LoopState}
    (fair : (limitRule side).Fair ok need)
    (stock : ∀ {conf : MarketConf} {taker : Order}, ok conf taker → StockTaker conf taker)
    (needs : ∀ taker : Order, taker.side = side → need taker = taker.frozen)
    (inv : MarketInv m w) (heldNonneg : ∀ user asset, 0 ≤ held user asset)
    (terms : LimitTerms m.toMarketConf amount price takerFee makerFee)
    (start : Trading (limitRule side) ok need held
      (limitStart now m w userId side amount price takerFee makerFee source))
    (executed : execute real now fuel (limitRule side)
      (limitStart now m w userId side amount price takerFee makerFee source) = some st')
    (exact : (restOrFinish real st').world.ledger.exact = true) :
    MarketStep held m (restOrFinish real st').market w (restOrFinish real st').world ∧
      OrderPosts m.toMarketConf (limitRule side) userId w (restOrFinish real st').world ∧
      ∀ {x o}, (restOrFinish real st').market.Rests (restOrFinish real st').world.heap x o →
        o = st'.taker.placed ∨ st'.market.Rests st'.world.heap x o := by
  have observed := w.observeRequire_observed side amount price
  have starts : Starts m w (limitStart now m w userId side amount price takerFee makerFee source) :=
    orderStart_starts observed (congrArg (· + 1) observed.orderIdStart)
  have resultExact := restOrFinish_exact exact
  obtain ⟨trading, progress⟩ := execute_trading fair heldNonneg start executed resultExact
  have ends := execute_served fair heldNonneg (limitRule_volume side) (limitRule_spends side) start
    executed resultExact
  rw [limitRule_side] at ends
  have step := trading.marketStep inv starts progress
  simp only [restOrFinish] at exact ⊢
  by_cases finished : mpdCmp st'.taker.left mpdZero = 0
  · simp only [if_pos finished] at exact ⊢
    refine ⟨(step.emit _ _).emit _ _, ((progress.orderPosts starts).emit _ _).emit _ _, ?_⟩
    intro x o rests
    rw [World.emit_heap, World.emit_heap] at rests
    exact Or.inr rests
  · simp only [if_neg finished] at exact ⊢
    have opened := limitTaker_open fair stock terms trading progress finished
    have cover := trading.cover
    rw [needs _ progress.taker.side, limitRule_side, step.conf] at cover
    obtain ⟨placed, posts, rested⟩ := rest_marketStep inv starts (trading.emit _ _)
      (progress.emit _ _) rfl opened (by rwa [World.emit_ledger]) (ends.emit _ _) finished exact
    refine ⟨placed, posts, fun rests => (rested rests).imp id fun before => ?_⟩
    rwa [World.emit_heap] at before

/-- A limit order of a user that is refused changes nothing; any other keeps the
market in order and posts its fills and what it freezes. -/
theorem limitOrder_step {outcome : Outcome} (inv : MarketInv m w) (sound : w.ledger.Sound)
    (backed : Backed held m w) (heldNonneg : ∀ user asset, 0 ≤ held user asset)
    (terms : LimitTerms m.toMarketConf amount price takerFee makerFee)
    (run : marketPutLimitOrder real now fuel m w userId side amount price takerFee makerFee source
      = some outcome) (exact : outcome.world.ledger.exact = true) :
    (∃ code, (code = -1 ∨ code = -2) ∧ outcome = .refuse code m w) ∨
      (outcome.ret = 0 ∧ MarketStep held m outcome.market w outcome.world ∧
        OrderPosts m.toMarketConf (limitRule side) userId w outcome.world) := by
  rcases marketPutLimitOrder_cases run with refused | ⟨covered, _, st', executed, rfl⟩
  · exact Or.inl refused
  refine Or.inr ⟨by simp only [restOrFinish]; split <;> rfl, ?_⟩
  obtain ⟨ok, need, fair, takes, stock, needs⟩ := limitRule_fair side
  have start := limitStart_trading_of_run fair takes needs inv sound backed terms covered executed
    (restOrFinish_exact exact)
  obtain ⟨step, posts, _⟩ :=
    limitOrder_served fair stock needs inv heldNonneg terms start executed exact
  exact ⟨step, posts⟩

end Limit

end ViabtcServer.MatchEngine
