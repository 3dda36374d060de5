import ViabtcServer.MatchEngine.Trading

/-!
# Commands on a market

What holds of a market between commands and what a command preserves of it,
while nothing rounds: the loop, the order put to rest and the admission test.
-/

namespace ViabtcServer.MatchEngine

open Decimal Container

/-! ## Between commands -/

/-- Every resting ask is priced above every resting bid. -/
def Market.Uncrossed (m : Market) (heap : Ref → Option Order) : Prop :=
  ∀ {x y a b}, m.Rests heap x a → m.Rests heap y b → a.side = .ask → b.side = .bid →
    b.price.value < a.price.value

section Inv

variable [Settings]

/-- What holds of a market between commands. -/
structure MarketInv (m : Market) (w : World) : Prop where
  ok : m.toMarketConf.Ok
  index : IndexInv m w.heap
  resting : ∀ {ref o}, m.Rests w.heap ref o → o.Resting m.toMarketConf
  below : ∀ {ref o}, m.Rests w.heap ref o → ref < w.nextRef ∧ o.id ≤ w.orderIdStart
  uncrossed : m.Uncrossed w.heap

/-- Frozen balances are what the market's orders freeze, and what others hold. -/
def Backed (held : ℕ → String → ℚ) (m : Market) (w : World) : Prop :=
  ∀ user asset, w.ledger.holds ⟨user, .freeze, asset⟩ =
    held user asset + m.frozen w.heap user asset

/-- What a command on a market preserves, and what it leaves alone. -/
structure MarketStep (held : ℕ → String → ℚ) (m m' : Market) (w w' : World) : Prop where
  conf : m'.toMarketConf = m.toMarketConf
  inv : MarketInv m' w'
  sound : w'.ledger.Sound
  backed : Backed held m' w'
  ignored : w'.ignored = w.ignored
  nextRef_le : w.nextRef ≤ w'.nextRef
  orderId_le : w.orderIdStart ≤ w'.orderIdStart
  heap : ∀ x < w.nextRef, (∀ side, x ∉ m.book side) → w'.heap x = w.heap x
  rests : ∀ {x o'}, m'.Rests w'.heap x o' →
    (∃ o, m.Rests w.heap x o ∧ o.SameKey o') ∨ (w.nextRef ≤ x ∧ w.orderIdStart < o'.id)

end Inv

variable [Libmpdec] [Settings] {m m' : Market} {w w' : World} {order o : Order} {ref : Ref}
  {held : ℕ → String → ℚ} {real : Bool} {now : Time} {fuel : ℕ}

/-! ## Writing output -/

omit [Libmpdec] in
/-- Output is not part of what a command preserves. -/
theorem MarketStep.emit (step : MarketStep held m m' w w') (real : Bool) (output : Output) :
    MarketStep held m m' w (w'.emit real output) := by
  obtain ⟨conf, ⟨ok, index, resting, below, uncrossed⟩, sound, backed, ignored, nextRef, orderId,
    heap, rests⟩ := step
  cases real <;> exact ⟨conf, ⟨ok, index, resting, below, uncrossed⟩, sound, backed, ignored,
    nextRef, orderId, heap, rests⟩

/-- What a taker's order adds to the accounts: its fills, and what it moves from
the available to the frozen balance. -/
def OrderPosts (conf : MarketConf) (rule : MatchRule) (user : ℕ) (w w' : World) : Prop :=
  ∃ (new : List Fill) (moved : ℚ), w'.fills = w.fills ++ new ∧
    (∀ f ∈ new, FillBy rule conf user f) ∧
    w'.ledger.accounts = w.ledger.accounts + (new.map (Fill.posted conf)).sum +
      (Finsupp.single ⟨user, .freeze, conf.gives rule.side⟩ moved -
        Finsupp.single ⟨user, .available, conf.gives rule.side⟩ moved)

omit [Libmpdec] in
theorem OrderPosts.emit {conf : MarketConf} {rule : MatchRule} {user : ℕ}
    (posts : OrderPosts conf rule user w w') (real : Bool) (output : Output) :
    OrderPosts conf rule user w (w'.emit real output) := by
  cases real <;> exact posts

/-! ## After the loop -/

/-- A loop started by a new order of `m`: the order took its id, nothing else
has happened. -/
structure Starts (m : Market) (w : World) (st : LoopState) : Prop where
  market : st.market = m
  heap : st.world.heap = w.heap
  nextRef : st.world.nextRef = w.nextRef
  orderId : st.world.orderIdStart = w.orderIdStart + 1
  takerId : st.taker.id = w.orderIdStart + 1
  ignored : st.world.ignored = w.ignored
  fills : st.world.fills = w.fills
  accounts : st.world.ledger.accounts = w.ledger.accounts

/-- A new order before its loop: it has taken its id. -/
def orderStart (m : Market) (w : World) (order : Order) : LoopState :=
  ⟨m, { w with orderIdStart := order.id }, order⟩

omit [Libmpdec] [Settings] in
theorem orderStart_starts {observed : World} (same : w.Observed observed)
    (id : order.id = w.orderIdStart + 1) : Starts m w (orderStart m observed order) :=
  ⟨rfl, same.heap, same.nextRef, id, id, same.ignored, same.fills, same.accounts⟩

omit [Libmpdec] in
/-- An admitted order starts its loop within the invariant. -/
theorem orderStart_trading {rule : MatchRule} {ok : MarketConf → Order → Prop}
    {need : Order → ℚ} {observed : World} (same : w.Observed observed) (inv : MarketInv m w)
    (sound : w.ledger.Sound) (backed : Backed held m w) (taker : ok m.toMarketConf order)
    (fee : FeeOk m.toMarketConf order.takerFee)
    (cover : need order ≤ w.ledger.holds ⟨order.userId, .available, m.gives rule.side⟩) :
    Trading rule ok need held (orderStart m observed order) where
  market := inv.ok
  taker := taker
  takerFee := fee
  index := by
    simp only [orderStart, same.heap]
    exact inv.index
  resting {ref o} rests := by
    simp only [orderStart, same.heap] at rests
    exact inv.resting rests
  sound := same.sound sound
  backed user asset := by
    simp only [orderStart, same.heap, same.holds]
    exact backed user asset
  cover := by
    simp only [orderStart, same.holds]
    exact cover

section AfterLoop

variable {rule : MatchRule} {ok : MarketConf → Order → Prop} {need : Order → ℚ} {st st' : LoopState}

omit [Libmpdec] in
/-- The makers of a finished loop rested before it. -/
theorem Progress.rested (starts : Starts m w st) (progress : Progress rule st st') {x : Ref}
    {o' : Order} (rests : st'.market.Rests st'.world.heap x o') :
    ∃ o, m.Rests w.heap x o ∧ o.SameKey o' := by
  obtain ⟨o, before, keep⟩ := progress.rests rests
  rw [starts.market, starts.heap] at before
  exact ⟨o, before, keep⟩

omit [Libmpdec] in
/-- What the loop alone preserves. -/
theorem Trading.marketStep (inv : MarketInv m w) (starts : Starts m w st)
    (trading : Trading rule ok need held st') (progress : Progress rule st st') :
    MarketStep held m st'.market w st'.world where
  conf := progress.conf.trans (congrArg Market.toMarketConf starts.market)
  inv :=
    { ok := trading.market
      index := trading.index
      resting := trading.resting
      below := fun {x o'} rests => by
        obtain ⟨o, before, keep⟩ := progress.rested starts rests
        have below := inv.below before
        rw [progress.nextRef, progress.orderIdStart, starts.nextRef, starts.orderId, keep.id]
        exact ⟨below.1, below.2.trans (Nat.le_succ _)⟩
      uncrossed := fun {x y a b} ra rb sa sb => by
        obtain ⟨a₀, before, keep⟩ := progress.rested starts ra
        obtain ⟨b₀, before', keep'⟩ := progress.rested starts rb
        rw [keep.price, keep'.price]
        exact inv.uncrossed before before' (keep.side.symm.trans sa) (keep'.side.symm.trans sb) }
  sound := trading.sound
  backed := trading.backed
  ignored := progress.ignored.trans starts.ignored
  nextRef_le := (progress.nextRef.trans starts.nextRef).ge
  orderId_le := by
    rw [progress.orderIdStart, starts.orderId]
    exact Nat.le_succ _
  heap x _ absent := by
    rw [← starts.heap]
    exact progress.heap x (by rwa [starts.market])
  rests {x o'} rests := Or.inl (progress.rested starts rests)

omit [Libmpdec] in
theorem Progress.orderPosts (starts : Starts m w st) (progress : Progress rule st st') :
    OrderPosts m.toMarketConf rule st.taker.userId w st'.world := by
  obtain ⟨new, fills, accounts, by_⟩ := progress.posts
  rw [starts.market] at accounts by_
  refine ⟨new, 0, fills.trans (congrArg (· ++ new) starts.fills), by_, ?_⟩
  rw [accounts, starts.accounts, Finsupp.single_zero, Finsupp.single_zero, sub_zero, add_zero]

end AfterLoop

/-! ## Putting an order to rest -/

omit [Libmpdec] in
/-- The asset an open order gives can store what the order freezes. -/
theorem Order.Open.frozen_digits (opened : order.Open m.toMarketConf) (ok : m.toMarketConf.Ok) :
    FracDigits (assetPrec (m.gives order.side)) order.frozen := by
  unfold Order.frozen
  cases order.side with
  | ask =>
      refine opened.leftDigits.mono ?_
      change m.stockPrec ≤ assetPrec m.stock
      linarith [ok.bidFeePrec, opened.takerFee.digits.nonneg]
  | bid =>
      refine (opened.priceDigits.mul opened.leftDigits).mono ?_
      change m.moneyPrec + m.stockPrec ≤ assetPrec m.money
      linarith [ok.dealPrec]

/-- Storing the order posts nothing. -/
theorem World.place_posts (w : World) (sound : w.ledger.Sound) (order : Order) :
    w.ledger.Posts (w.place order).ledger 0 := by
  have balances : (w.place order).ledger.balances = w.ledger.balances := by
    unfold World.place World.observeFreeze
    cases order.side <;> rfl
  refine ⟨?_, Finsupp.ext fun key => ?_⟩
  · intro key entry found
    rw [balances] at found
    exact sound key entry found
  · simp only [Ledger.accounts_apply, add_zero]
    unfold Ledger.holds
    rw [balances]

/-- An open order its user can pay for is put to rest and frozen. -/
theorem orderPut_posts (ok : m.toMarketConf.Ok) (index : IndexInv m w.heap)
    (resting : order.Open m.toMarketConf) (unused : ∀ side, w.nextRef ∉ m.book side)
    (fresh : ∀ {ref o}, m.Rests w.heap ref o → o.id ≠ order.id) (sound : w.ledger.Sound)
    (cover : order.frozen ≤ w.ledger.holds ⟨order.userId, .available, m.gives order.side⟩)
    (exact : (orderPut m w order).2.2.ledger.exact = true) :
    m.Adds (orderPut m w order).2.1 w.nextRef order.placed ∧
      IndexInv (orderPut m w order).2.1 (orderPut m w order).2.2.heap ∧
      (orderPut m w order).2.2.heap = Function.update w.heap w.nextRef (some order.placed) ∧
      (orderPut m w order).2.2.nextRef = w.nextRef + 1 ∧
      (orderPut m w order).2.2.orderIdStart = w.orderIdStart ∧
      (orderPut m w order).2.2.fills = w.fills ∧
      (orderPut m w order).2.2.ignored = w.ignored ∧
      order.placed.Resting m.toMarketConf ∧
      w.ledger.Posts (orderPut m w order).2.2.ledger
        (Finsupp.single ⟨order.userId, .freeze, m.gives order.side⟩ order.frozen -
          Finsupp.single ⟨order.userId, .available, m.gives order.side⟩ order.frozen) := by
  obtain ⟨m', put, adds, index'⟩ :=
    orderPut_spec index resting.limit resting.priceFinite unused fresh
  rw [put] at exact ⊢
  simp only [World.discard_ledger] at exact
  have placedExact := balanceMove_exact exact
  -- the frozen amount is the true one
  obtain ⟨finite, value⟩ : (freezeAmount order).isFinite ∧
      (freezeAmount order).value = order.frozen := by
    simp only [World.place, World.store_ledger, World.observeFreeze] at placedExact
    unfold freezeAmount Order.frozen
    cases side : order.side with
    | ask => exact ⟨resting.leftFinite, rfl⟩
    | bid =>
        simp only [side, World.observe_ledger, Ledger.exact_observe] at placedExact
        exact ⟨Libmpdec.mul_finite resting.priceFinite resting.leftFinite, placedExact.2⟩
  have placed : order.placed.Resting m.toMarketConf :=
    { resting with freezeFinite := finite, freeze := value }
  have observed := w.place_posts sound order
  obtain ⟨type, known⟩ := ok.known order.side
  have digits : FracDigits type.precSave (freezeAmount order).value := by
    rw [value, ← assetPrec_of_some known]
    exact resting.frozen_digits ok
  obtain ⟨result, l, call, posts⟩ := balanceMove_posts observed.sound
    (show BalanceType.available ≠ .freeze by decide) known finite
    (value ▸ resting.frozen_pos) digits
    (by rwa [observed.holds, Finsupp.zero_apply, add_zero, value])
  have call' : balanceFreeze (w.place order).ledger order.userId (m.gives order.side)
    (freezeAmount order) = (some result, l) := call
  rw [call'] at exact
  have answered := World.discard_answered (w := w.place order) call'
  have placeIgnored : (w.place order).ignored = w.ignored := by
    unfold World.place World.observeFreeze
    cases order.side <;> rfl
  have counters := World.observeFreeze_sameOrders
    { w.store w.nextRef order with nextRef := w.nextRef + 1 } order
  refine ⟨adds, index', w.place_heap order, w.place_nextRef order, counters.orderIdStart,
    counters.fills, answered.2.trans placeIgnored, placed, ?_⟩
  rw [answered.1, ← value]
  have all := observed.trans (posts exact)
  rwa [zero_add] at all

theorem orderPut_exact (exact : (orderPut m w order).2.2.ledger.exact = true) :
    w.ledger.exact = true := by
  simp only [orderPut] at exact
  split at exact
  · exact exact
  split at exact
  · exact exact
  split at exact
  · exact exact
  split at exact
  · exact exact
  have frozen := balanceMove_exact exact
  simp only [World.store_ledger, World.observeFreeze] at frozen
  split at frozen
  · exact frozen
  · exact (World.observe_observed _ _ _).exact frozen

/-! ## Admission -/

/-- The admission test covers what the order may come to pay. -/
theorem lacks_covers {key : BalanceKey} {require : Mpd} (sound : w.ledger.Sound)
    (finite : require.isFinite) (covered : lacks w.ledger key require = false) :
    require.value ≤ w.ledger.holds key := by
  unfold lacks at covered
  split at covered
  · cases covered
  · rename_i balance found
    have ok := sound key balance found
    rw [Ledger.holds_of_some found]
    rwa [decide_eq_false_iff_not, mpdCmp_lt_zero ok.finite finite, not_lt] at covered

end ViabtcServer.MatchEngine
