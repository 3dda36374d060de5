import ViabtcServer.MatchEngine.Command

/-!
# Market orders and cancels

A market order is refused without effect or runs its loop; it never rests. A
cancel releases what an order has frozen and takes it out of every index.
-/

namespace ViabtcServer.MatchEngine

open Decimal Container

variable [Libmpdec] [Settings] {m m' : Market} {w w' : World} {order o : Order} {ref : Ref}
  {held : ℕ → String → ℚ} {real : Bool} {now : Time} {fuel : ℕ}

/-! ## Market orders -/

/-- The rule of a market order. -/
def marketRule : Side → MatchRule
  | .ask => marketAskRule
  | .bid => marketBidRule

omit [Settings] in
@[simp]
theorem marketRule_side (side : Side) : (marketRule side).side = side := by
  cases side <;> rfl

omit [Settings] in
theorem marketRule_sane (side : Side) : (marketRule side).Sane := by
  cases side
  · exact marketAskRule_sane
  · exact marketBidRule_sane

omit [Settings] in
/-- A market taker needs what is left of it, in stock or in money. -/
theorem marketRule_fair (side : Side) : ∃ ok,
    (marketRule side).Fair ok (fun taker => taker.left.value) ∧
    ∀ {conf : MarketConf} {taker : Order}, StockTaker conf taker → ok conf taker := by
  cases side with
  | ask => exact ⟨_, marketAskRule_fair, id⟩
  | bid => exact ⟨_, marketBidRule_fair, StockTaker.toTakerSane⟩

/-- Where a market order starts matching, given the best order it was tested on. -/
def marketStart (now : Time) (m : Market) (w : World) (best : Order) (userId : ℕ) (side : Side)
    (amount takerFee : Mpd) (source : String) : LoopState :=
  let w := (marketRequire w m side best).2
  orderStart m w (newOrder now m w .market userId side amount mpdZero takerFee mpdZero source)

omit [Settings] in
theorem marketRequire_observed (w : World) (m : Market) (side : Side) (best : Order) :
    w.Observed (marketRequire w m side best).2 := by
  cases side
  · exact .refl w
  · exact w.observe_observed _ _

section Market

variable {userId : ℕ} {side : Side} {amount takerFee : Mpd} {source : String} {outcome : Outcome}

/-- A market order is refused, or runs its loop and is finished. -/
theorem marketPutMarketOrder_cases
    (run : marketPutMarketOrder real now fuel m w userId side amount takerFee source =
      some outcome) :
    (∃ code, (code = -1 ∨ code = -2 ∨ code = -3) ∧ outcome = .refuse code m w) ∨
      (lacks w.ledger ⟨userId, .available, m.gives side⟩ amount = false ∧
        ∃ node best st', node ∈ m.book side.opposite ∧ w.heap node = some best ∧
          ¬ mpdCmp amount (marketRequire w m side best).1 < 0 ∧
          execute real now fuel (marketRule side)
            (marketStart now m w best userId side amount takerFee source) = some st' ∧
          outcome = finishMarket real st') := by
  simp only [marketPutMarketOrder] at run
  split at run
  · exact Or.inl ⟨-1, Or.inl rfl, (Option.some.inj run).symm⟩
  rename_i covered
  split at run
  · exact Or.inl ⟨-3, Or.inr (Or.inr rfl), (Option.some.inj run).symm⟩
  rename_i node head
  split at run
  · cases run
  rename_i best live
  split at run
  · exact Or.inl ⟨-2, Or.inr (Or.inl rfl), (Option.some.inj run).symm⟩
  rename_i enough
  obtain ⟨st', executed, rfl⟩ := Option.map_eq_some_iff.mp run
  refine Or.inr ⟨Bool.eq_false_iff.mpr covered, node, best, st', List.mem_of_mem_head? head, live,
    enough, ?_, rfl⟩
  rw [← executed]
  cases side <;> rfl

omit [Libmpdec] [Settings] in
theorem finishMarket_world (real : Bool) (st : LoopState) :
    ∃ first second, (finishMarket real st).world =
      (st.world.emit real first).emit real second :=
  ⟨_, _, rfl⟩

/-- The decimals of a well formed market order, as the handlers admit them. -/
structure MarketTerms (conf : MarketConf) (amount takerFee : Mpd) : Prop where
  amountFinite : amount.isFinite
  amountPos : 0 < amount.value
  amountDigits : FracDigits conf.stockPrec amount.value
  takerFee : FeeOk conf takerFee

theorem marketStart_trading {ok : MarketConf → Order → Prop} (best : Order)
    (takes : ∀ {conf : MarketConf} {taker : Order}, StockTaker conf taker → ok conf taker)
    (inv : MarketInv m w) (sound : w.ledger.Sound) (backed : Backed held m w)
    (terms : MarketTerms m.toMarketConf amount takerFee)
    (covered : lacks w.ledger ⟨userId, .available, m.gives side⟩ amount = false) :
    Trading (marketRule side) ok (fun taker => taker.left.value) held
      (marketStart now m w best userId side amount takerFee source) := by
  refine orderStart_trading (marketRequire_observed w m side best) inv sound backed
    (takes ⟨⟨terms.amountFinite, terms.amountPos.le⟩, terms.amountDigits⟩) terms.takerFee ?_
  rw [marketRule_side]
  exact lacks_covers sound terms.amountFinite covered

/-- A market order that is refused changes nothing; any other keeps the market
in order and posts its fills. -/
theorem marketOrder_step (inv : MarketInv m w) (sound : w.ledger.Sound)
    (backed : Backed held m w) (heldNonneg : ∀ user asset, 0 ≤ held user asset)
    (terms : MarketTerms m.toMarketConf amount takerFee)
    (run : marketPutMarketOrder real now fuel m w userId side amount takerFee source =
      some outcome) (exact : outcome.world.ledger.exact = true) :
    (∃ code, (code = -1 ∨ code = -2 ∨ code = -3) ∧ outcome = .refuse code m w) ∨
      (outcome.ret = 0 ∧ MarketStep held m outcome.market w outcome.world ∧
        OrderPosts m.toMarketConf (marketRule side) userId w outcome.world) := by
  rcases marketPutMarketOrder_cases run with
    refused | ⟨covered, _, best, st', _, _, _, executed, rfl⟩
  · exact Or.inl refused
  refine Or.inr ⟨rfl, ?_⟩
  obtain ⟨ok, fair, takes⟩ := marketRule_fair side
  have observed := marketRequire_observed w m side best
  have starts : Starts m w (marketStart now m w best userId side amount takerFee source) :=
    orderStart_starts observed (congrArg (· + 1) observed.orderIdStart)
  have start : Trading (marketRule side) ok (fun taker => taker.left.value) held
      (marketStart now m w best userId side amount takerFee source) :=
    marketStart_trading best takes inv sound backed terms covered
  have resultExact : st'.world.ledger.exact = true := by simpa [finishMarket] using exact
  obtain ⟨trading, progress⟩ := execute_trading fair heldNonneg start executed resultExact
  obtain ⟨first, second, world⟩ := finishMarket_world real st'
  rw [world]
  exact ⟨((trading.marketStep inv starts progress).emit _ _).emit _ _,
    ((progress.orderPosts starts).emit _ _).emit _ _⟩

end Market

/-! ## Cancels -/

/-- With its frozen amount backed, `order_finish` releases it and takes the
order out of every index. -/
theorem orderFinish_posts (real : Bool) (ok : m.toMarketConf.Ok) (index : IndexInv m w.heap)
    (rests : m.Rests w.heap ref order) (resting : order.Resting m.toMarketConf)
    (sound : w.ledger.Sound)
    (le : order.freeze.value ≤ w.ledger.holds ⟨order.userId, .freeze, m.gives order.side⟩) :
    ∃ (m' : Market) (w' : World), orderFinish real m w ref = (true, m', w') ∧
      m.Removes m' ref order ∧ IndexInv m' w'.heap ∧ w'.heap ref = none ∧
      w'.ignored = w.ignored ∧ (w'.ledger.exact = true → w.ledger.Posts w'.ledger
        (Finsupp.single ⟨order.userId, .available, m.gives order.side⟩ order.freeze.value -
          Finsupp.single ⟨order.userId, .freeze, m.gives order.side⟩ order.freeze.value)) := by
  obtain ⟨type, known⟩ := ok.known order.side
  have digits : FracDigits type.precSave order.freeze.value := by
    rw [← assetPrec_of_some known, resting.freeze]
    exact resting.frozen_digits ok
  obtain ⟨result, l, call, posts⟩ := balanceMove_posts sound
    (show BalanceType.freeze ≠ .available by decide) known resting.freezeFinite
    resting.freeze_pos digits le
  have call' : balanceUnfreeze w.ledger order.userId (m.gives order.side) order.freeze =
    (some result, l) := call
  have answered := World.discard_answered (w := w) call'
  obtain ⟨m', output, removed, ⟨b, rfl⟩, removes, index'⟩ := orderRemove_spec real index rests
    (World.discard_heap w (some result, l))
  have frozen : mpdCmp order.freeze mpdZero > 0 := by
    rw [gt_iff_lt, mpdCmp_gt_zero resting.freezeFinite mpdZero_isFinite, mpdZero_value]
    exact resting.freeze_pos
  have gives : (unlinkBook m w order ref).gives order.side = m.gives order.side := by
    rw [unlinkBook_eq index.toBookInv rests, Market.setBook_toMarketConf]
  refine ⟨m', _, ?_, removes, index', Function.update_self .., ?_, ?_⟩
  · simp only [orderFinish, rests.1, if_pos frozen, gives, call', Option.isNone_some,
      Bool.false_eq_true, if_false, removed]
  · rw [orderFree_ignored, World.emit_ignored]
    exact call' ▸ answered.2
  · intro exact
    rw [orderFree_ledger, World.emit_ledger] at exact ⊢
    exact posts exact

/-- A cancelled order leaves the market; its user gets back what it froze. -/
theorem marketCancelOrder_step (real : Bool) (inv : MarketInv m w) (sound : w.ledger.Sound)
    (backed : Backed held m w) (heldNonneg : ∀ user asset, 0 ≤ held user asset)
    (rests : m.Rests w.heap ref order)
    (exact : (marketCancelOrder real m w ref order).world.ledger.exact = true) :
    (marketCancelOrder real m w ref order).ret = 0 ∧
      MarketStep held m (marketCancelOrder real m w ref order).market w
        (marketCancelOrder real m w ref order).world ∧
      (marketCancelOrder real m w ref order).world.fills = w.fills ∧
      (marketCancelOrder real m w ref order).world.ledger.accounts = w.ledger.accounts +
        (Finsupp.single ⟨order.userId, .available, m.gives order.side⟩ order.freeze.value -
          Finsupp.single ⟨order.userId, .freeze, m.gives order.side⟩ order.freeze.value) := by
  have releasedExact : (orderFinish real m (w.emit real (.orderMessage .finish order m.stock
    m.money)) ref).2.2.ledger.exact = true := exact
  obtain ⟨first, emitted⟩ : ∃ first, first = w.emit real (.orderMessage .finish order m.stock
    m.money) := ⟨_, rfl⟩
  have heap : first.heap = w.heap := by rw [emitted, World.emit_heap]
  have ledger : first.ledger = w.ledger := by rw [emitted, World.emit_ledger]
  have announced : w.SameCounters first :=
    emitted ▸ (World.emit_sameOrders w real _).toSameCounters
  have rests' : m.Rests first.heap ref order := heap ▸ rests
  have resting := inv.resting rests
  have le : order.freeze.value ≤
      first.ledger.holds ⟨order.userId, .freeze, m.gives order.side⟩ := by
    rw [ledger, backed]
    have own := Market.freeze_le_frozen inv.index
      (fun rests => (inv.resting rests).freeze_pos.le) rests
    linarith [heldNonneg order.userId (m.gives order.side)]
  obtain ⟨m', w', finish, removes, index', freed, ignored, posts⟩ :=
    orderFinish_posts real inv.ok (heap ▸ inv.index) rests' resting (ledger ▸ sound) le
  have finished := orderFinish_finished real (heap ▸ inv.index.toBookInv) rests'
  rw [finish] at finished
  have outcome : marketCancelOrder real m w ref order = ⟨0, replyInfo real order, m', w'⟩ := by
    simp only [marketCancelOrder, ← emitted, finish]
  rw [← emitted, finish] at releasedExact
  have posts := posts releasedExact
  rw [outcome]
  have counters := announced.trans finished.toSameCounters
  have rested {x : Ref} {o : Order} (now : m'.Rests w'.heap x o) :
      x ≠ ref ∧ m.Rests w.heap x o := by
    have differ : x ≠ ref := by
      rintro rfl
      exact absurd (now.1.symm.trans freed) (by simp)
    refine ⟨differ, ?_, ?_⟩
    · rw [← heap, ← finished.heap x differ]
      exact now.1
    · have mem := now.2
      rw [removes.book] at mem
      exact List.mem_of_mem_erase mem
  refine ⟨rfl, ⟨removes.conf, ⟨?_, index', ?_, ?_, ?_⟩, posts.sound, ?_, ?_, ?_, ?_, ?_, ?_⟩,
    counters.fills, ?_⟩
  · rw [removes.conf]
    exact inv.ok
  · intro x o now
    rw [removes.conf]
    exact inv.resting (rested now).2
  · intro x o now
    rw [counters.nextRef, counters.orderIdStart]
    exact inv.below (rested now).2
  · intro x y a b ra rb sa sb
    exact inv.uncrossed (rested ra).2 (rested rb).2 sa sb
  · intro user asset
    have frozen : m'.frozen w'.heap user asset = _ :=
      Market.frozen_removes (heap ▸ inv.index) removes rests' finished.heap
    rw [frozen, posts.holds, ledger, backed, heap, Finsupp.sub_apply,
      single_type_ne (show BalanceType.freeze ≠ .available by decide), zero_sub]
    unfold Order.freezes
    by_cases own : user = order.userId
    · by_cases sameAsset : m.gives order.side = asset
      · subst own sameAsset
        rw [Finsupp.single_eq_same, if_pos rfl, if_pos rfl]
        ring
      · rw [if_pos own, if_neg sameAsset, Finsupp.single_eq_of_ne (by simp [Ne.symm sameAsset])]
        ring
    · rw [if_neg own, Finsupp.single_eq_of_ne (by simp [own])]
      ring
  · exact ignored.trans (by rw [emitted, World.emit_ignored])
  · exact counters.nextRef.ge
  · exact counters.orderIdStart.ge
  · intro x _ absent
    have differ : x ≠ ref := by
      rintro rfl
      exact absent _ rests.2
    rw [finished.heap x differ, heap]
  · intro x o now
    exact Or.inl ⟨o, (rested now).2, .refl o⟩
  · rw [posts.accounts, ledger]

end ViabtcServer.MatchEngine
