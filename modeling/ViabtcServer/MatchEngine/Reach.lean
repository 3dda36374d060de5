import ViabtcServer.Decimal.Reference
import ViabtcServer.MatchEngine.Engine
import ViabtcServer.MatchEngine.Handlers
import Mathlib.Logic.Relation

/-!
# Runs of the engine

The steps of an engine, live and replayed, on well formed arguments and while
nothing rounds. They keep the invariant of the engine, and none of them drops a
`NULL`.
-/

namespace ViabtcServer.MatchEngine

open Decimal Container

/-! ## Well formed arguments -/

structure LimitArgs.WellFormed (a : LimitArgs) : Prop where
  amountFinite : a.amount.isFinite
  amountDigits : FracDigits a.market.stockPrec a.amount.value
  priceFinite : a.price.isFinite
  priceDigits : FracDigits a.market.moneyPrec a.price.value
  takerFeeFinite : a.takerFee.isFinite
  takerFeeDigits : FracDigits a.market.feePrec a.takerFee.value
  makerFeeFinite : a.makerFee.isFinite
  makerFeeDigits : FracDigits a.market.feePrec a.makerFee.value

structure MarketArgs.WellFormed (a : MarketArgs) : Prop where
  amountFinite : a.amount.isFinite
  amountDigits : FracDigits a.market.stockPrec a.amount.value
  takerFeeFinite : a.takerFee.isFinite
  takerFeeDigits : FracDigits a.market.feePrec a.takerFee.value

structure UpdateArgs.WellFormed [Settings] (a : UpdateArgs) : Prop where
  changeFinite : a.change.isFinite
  changeDigits : FracDigits (assetPrec a.asset) a.change.value

instance LimitArgs.decidableWellFormed (a : LimitArgs) : Decidable a.WellFormed :=
  decidable_of_iff
    ((a.amount.isFinite ∧ FracDigits a.market.stockPrec a.amount.value) ∧
      (a.price.isFinite ∧ FracDigits a.market.moneyPrec a.price.value) ∧
      (a.takerFee.isFinite ∧ FracDigits a.market.feePrec a.takerFee.value) ∧
      a.makerFee.isFinite ∧ FracDigits a.market.feePrec a.makerFee.value)
    ⟨fun ⟨⟨af, ad⟩, ⟨pf, pd⟩, ⟨tf, td⟩, mf, md⟩ => ⟨af, ad, pf, pd, tf, td, mf, md⟩,
      fun ⟨af, ad, pf, pd, tf, td, mf, md⟩ => ⟨⟨af, ad⟩, ⟨pf, pd⟩, ⟨tf, td⟩, mf, md⟩⟩

instance MarketArgs.decidableWellFormed (a : MarketArgs) : Decidable a.WellFormed :=
  decidable_of_iff
    ((a.amount.isFinite ∧ FracDigits a.market.stockPrec a.amount.value) ∧
      a.takerFee.isFinite ∧ FracDigits a.market.feePrec a.takerFee.value)
    ⟨fun ⟨⟨af, ad⟩, tf, td⟩ => ⟨af, ad, tf, td⟩, fun ⟨af, ad, tf, td⟩ => ⟨⟨af, ad⟩, tf, td⟩⟩

instance UpdateArgs.decidableWellFormed [Settings] (a : UpdateArgs) : Decidable a.WellFormed :=
  decidable_of_iff (a.change.isFinite ∧ FracDigits (assetPrec a.asset) a.change.value)
    ⟨fun ⟨finite, digits⟩ => ⟨finite, digits⟩, fun ⟨finite, digits⟩ => ⟨finite, digits⟩⟩

/-- What is read is checked when there is something read. -/
instance decidableForallOk {ε α : Type} (read : Except ε α) (p : α → Prop) [∀ a, Decidable (p a)] :
    Decidable (∀ a, read = .ok a → p a) :=
  match read with
  | .ok a => decidable_of_iff (p a)
      ⟨fun holds _ same => Except.ok.inj same ▸ holds, fun all => all a rfl⟩
  | .error _ => isTrue nofun

section Terms

variable [Libmpdec] {tooLong : String → Bool} {markets : Dict String Market} {params : List Json}

/-- What the checks of the handlers add to well formed arguments. -/
theorem LimitArgs.WellFormed.terms {a : LimitArgs} (wf : a.WellFormed)
    (read : readLimitArgs tooLong markets params = .ok a) :
    dictFind markets a.name = some a.market ∧
      LimitTerms a.market.toMarketConf a.amount a.price a.takerFee a.makerFee := by
  obtain ⟨_, _, _, _, _, _, _, _, found, _, amount, price, takerFee, makerFee, _⟩ :=
    readLimitArgs_eq_ok.mp read
  have taker := jsonFee_range takerFee wf.takerFeeFinite
  have maker := jsonFee_range makerFee wf.makerFeeFinite
  exact ⟨found, wf.amountFinite, jsonPositive_pos amount wf.amountFinite, wf.amountDigits,
    wf.priceFinite, jsonPositive_pos price wf.priceFinite, wf.priceDigits,
    ⟨wf.takerFeeFinite, taker.1, taker.2, wf.takerFeeDigits⟩,
    ⟨wf.makerFeeFinite, maker.1, maker.2, wf.makerFeeDigits⟩⟩

theorem MarketArgs.WellFormed.terms {a : MarketArgs} (wf : a.WellFormed)
    (read : readMarketArgs tooLong markets params = .ok a) :
    dictFind markets a.name = some a.market ∧
      MarketTerms a.market.toMarketConf a.amount a.takerFee := by
  obtain ⟨_, _, _, _, _, _, found, _, amount, takerFee, _⟩ := readMarketArgs_eq_ok.mp read
  have taker := jsonFee_range takerFee wf.takerFeeFinite
  exact ⟨found, wf.amountFinite, jsonPositive_pos amount wf.amountFinite, wf.amountDigits,
    ⟨wf.takerFeeFinite, taker.1, taker.2, wf.takerFeeDigits⟩⟩

end Terms

section Runs

variable [Libmpdec] [Settings]

/-- The decimals a command brings are numbers with at most the digits of its
market or asset. -/
def Command.WellFormed (e : Engine) : Command → Prop
  | .balanceUpdate _ [user, .string asset, business, businessId, change, detail] =>
      ∀ a, readUpdateArgs (assetPrecShow asset) user (.string asset) business businessId change
        detail = .ok a → a.WellFormed
  | .balanceUpdate _ _ => True
  | .orderPutLimit params => ∀ a, readLimitArgs liveTooLong e.markets params = .ok a → a.WellFormed
  | .orderPutMarket params =>
      ∀ a, readMarketArgs liveTooLong e.markets params = .ok a → a.WellFormed
  | .orderCancel _ => True

/-- What is asked of the terms of a balance update is asked of parameters that have its shape. -/
def OfUpdate (p : Json → String → Json → Json → Json → Json → Prop) (params : List Json) : Prop :=
  match params with
  | [user, .string asset, business, businessId, change, detail] =>
      p user asset business businessId change detail
  | _ => True

instance decidableOfUpdate (p : Json → String → Json → Json → Json → Json → Prop)
    [∀ user asset business businessId change detail,
      Decidable (p user asset business businessId change detail)]
    (params : List Json) : Decidable (OfUpdate p params) := by
  unfold OfUpdate
  split <;> infer_instance

instance Command.decidableWellFormed (e : Engine) :
    (command : Command) → Decidable (command.WellFormed e)
  | .balanceUpdate _ params => inferInstanceAs (Decidable (OfUpdate
      (fun user asset business businessId change detail => ∀ a,
        readUpdateArgs (assetPrecShow asset) user (.string asset) business businessId change
          detail = .ok a → a.WellFormed) params))
  | .orderPutLimit _ => inferInstanceAs (Decidable (∀ _, _ → _))
  | .orderPutMarket _ => inferInstanceAs (Decidable (∀ _, _ → _))
  | .orderCancel _ => inferInstanceAs (Decidable True)

/-- The same of a logged operation. -/
structure LoggedWellFormed (e : Engine) (params : List Json) : Prop where
  update : ∀ {user asset business businessId change detail a},
    params = [user, .string asset, business, businessId, change, detail] →
    readUpdateArgs (assetPrec asset) user (.string asset) business businessId change detail =
      .ok a → a.WellFormed
  limit : ∀ {a}, readLimitArgs loadTooLong e.markets params = .ok a → a.WellFormed
  market : ∀ {a}, readMarketArgs loadTooLong e.markets params = .ok a → a.WellFormed

/-! ## Steps -/

/-- A step of the engine that rounds nothing. -/
inductive Step : Engine → Engine → Prop
  | command {e e' : Engine} {now : Time} {fuel : ℕ} {command : Command} {reply : Reply}
      (wellFormed : command.WellFormed e) (run : e.handle now fuel command = some (reply, e'))
      (exact : e'.world.ledger.exact = true) : Step e e'
  | replay {e e' : Engine} {now : Time} {fuel padding : ℕ} {method : String} {params : List Json}
      (wellFormed : LoggedWellFormed e params)
      (run : loadOper now fuel padding e method params = some (some e'))
      (exact : e'.world.ledger.exact = true) : Step e e'
  | timer (e : Engine) (now : Time) : Step e (updateOnTimer now e)

/-- Any number of steps. -/
abbrev Run : Engine → Engine → Prop := Relation.ReflTransGen Step

variable {e e' : Engine} {now : Time} {fuel padding : ℕ} {params : List Json} {reply : Reply}
  {real : Bool} {w : World} {name : String}

/-- What a step keeps. -/
structure Kept (e e' : Engine) : Prop where
  inv : EngineInv e'
  ignored : e'.world.ignored = e.world.ignored

omit [Libmpdec] in
theorem Kept.of_eq (inv : EngineInv e) (markets : e'.markets = e.markets)
    (world : e'.world = e.world) : Kept e e' :=
  ⟨inv.of_eq markets world, congrArg World.ignored world⟩

omit [Libmpdec] in
/-- A command on one market, and a note about it in the log. -/
theorem Kept.install (inv : EngineInv e) {m : Market} {outcome : Outcome}
    (found : dictFind e.markets name = some m)
    (step : MarketStep (e.heldBeside name) m outcome.market e.world outcome.world)
    (markets : e'.markets = (e.install name outcome).markets)
    (world : e'.world = (e.install name outcome).world) : Kept e e' :=
  ⟨(inv.install found step).of_eq markets world,
    (congrArg World.ignored world).trans step.ignored⟩

/-- A limit order that is run keeps its market in order. -/
theorem EngineInv.limit (inv : EngineInv e) {a : LimitArgs} {tooLong : String → Bool}
    {st' : LoopState} (read : readLimitArgs tooLong e.markets params = .ok a) (wf : a.WellFormed)
    (put : a.put real now fuel e.world = some (restOrFinish real st'))
    (exact : (restOrFinish real st').world.ledger.exact = true) :
    dictFind e.markets a.name = some a.market ∧
      MarketStep (e.heldBeside a.name) a.market (restOrFinish real st').market e.world
        (restOrFinish real st').world ∧
      OrderPosts a.market.toMarketConf (limitRule a.side) a.userId e.world
        (restOrFinish real st').world := by
  obtain ⟨found, terms⟩ := wf.terms read
  refine ⟨found, ?_⟩
  rcases limitOrder_step (inv.market found) inv.sound (inv.backed_beside found)
    (inv.heldBeside_nonneg a.name) terms put exact with ⟨code, codes, refused⟩ | served
  · have ret := restOrFinish_ret real st'
    rw [refused] at ret
    obtain rfl : code = 0 := ret
    exact absurd codes (by decide)
  · exact served.2

/-- A market order that is run keeps its market in order. -/
theorem EngineInv.marketOrder (inv : EngineInv e) {a : MarketArgs} {tooLong : String → Bool}
    {st' : LoopState} (read : readMarketArgs tooLong e.markets params = .ok a) (wf : a.WellFormed)
    (put : a.put real now fuel e.world = some (finishMarket real st'))
    (exact : (finishMarket real st').world.ledger.exact = true) :
    dictFind e.markets a.name = some a.market ∧
      MarketStep (e.heldBeside a.name) a.market (finishMarket real st').market e.world
        (finishMarket real st').world ∧
      OrderPosts a.market.toMarketConf (marketRule a.side) a.userId e.world
        (finishMarket real st').world := by
  obtain ⟨found, terms⟩ := wf.terms read
  refine ⟨found, ?_⟩
  rcases marketOrder_step (inv.market found) inv.sound (inv.backed_beside found)
    (inv.heldBeside_nonneg a.name) terms put exact with ⟨code, codes, refused⟩ | served
  · have ret : (finishMarket real st').ret = 0 := rfl
    rw [refused] at ret
    obtain rfl : code = 0 := ret
    exact absurd codes (by decide)
  · exact served.2

/-- The order answered for names its market and its user. -/
theorem EngineInv.limit_info (inv : EngineInv e) {a : LimitArgs} {st' : LoopState}
    (found : dictFind e.markets a.name = some a.market)
    (executed : execute real now fuel (limitRule a.side) (a.start now e.world) = some st') :
    dictFind e.markets st'.taker.market = some a.market ∧ st'.taker.userId = a.userId := by
  have observed := e.world.observeRequire_observed a.side a.amount a.price
  have index : BookInv (a.start now e.world).market (a.start now e.world).world.heap := by
    change BookInv a.market (e.world.observeRequire a.side a.amount a.price).heap
    rw [observed.heap]
    exact (inv.market found).index.toBookInv
  have same := execute_sameTerms (limitRule_sane a.side) index executed
  have named : st'.taker.market = a.name := same.market.trans (inv.named found)
  exact ⟨named ▸ found, same.userId⟩

theorem EngineInv.market_info (inv : EngineInv e) {a : MarketArgs} {best : Order}
    {st' : LoopState} (found : dictFind e.markets a.name = some a.market)
    (executed : execute real now fuel (marketRule a.side) (a.start now e.world best) =
      some st') :
    dictFind e.markets st'.taker.market = some a.market ∧ st'.taker.userId = a.userId := by
  have observed := marketRequire_observed e.world a.market a.side best
  have index : BookInv (a.start now e.world best).market (a.start now e.world best).world.heap := by
    change BookInv a.market (marketRequire e.world a.market a.side best).2.heap
    rw [observed.heap]
    exact (inv.market found).index.toBookInv
  have same := execute_sameTerms (marketRule_sane a.side) index executed
  have named : st'.taker.market = a.name := same.market.trans (inv.named found)
  exact ⟨named ▸ found, same.userId⟩

omit [Libmpdec] [Settings] in
/-- An order found by its id rests in the market. -/
theorem IndexInv.rests_of_get {m : Market} {id : ℕ} {ref : Ref} {order : Order}
    (index : IndexInv m w.heap) (found : marketGetOrder m w id = some (ref, order)) :
    m.Rests w.heap ref order ∧ order.id = id := by
  obtain ⟨ref', entry, result⟩ := Option.bind_eq_some_iff.mp found
  obtain ⟨order', live, same⟩ := Option.map_eq_some_iff.mp result
  obtain ⟨rfl, rfl⟩ := Prod.mk.inj same
  obtain ⟨o, rests, id⟩ := index.orders.mp entry
  obtain rfl := rests.eq live
  exact ⟨rests, id⟩

/-- A cancel keeps its market in order. -/
theorem EngineInv.cancel (inv : EngineInv e) {a : CancelArgs} {ref : Ref} {order : Order}
    (read : readCancelArgs e.markets params = .ok a)
    (found : marketGetOrder a.market e.world a.orderId = some (ref, order))
    (exact : (marketCancelOrder real a.market e.world ref order).world.ledger.exact = true) :
    dictFind e.markets a.name = some a.market ∧
      MarketStep (e.heldBeside a.name) a.market (marketCancelOrder real a.market e.world ref
        order).market e.world (marketCancelOrder real a.market e.world ref order).world ∧
      (marketCancelOrder real a.market e.world ref order).world.ledger.accounts =
        e.world.ledger.accounts +
          (Finsupp.single ⟨order.userId, .available, a.market.gives order.side⟩
              order.freeze.value -
            Finsupp.single ⟨order.userId, .freeze, a.market.gives order.side⟩
              order.freeze.value) := by
  obtain ⟨_, _, _, _, market, _⟩ := readCancelArgs_eq_ok.mp read
  have marketInv := inv.market market
  obtain ⟨_, step, _, accounts⟩ := marketCancelOrder_step real marketInv inv.sound
    (inv.backed_beside market) (inv.heldBeside_nonneg a.name)
    (marketInv.index.rests_of_get found).1 exact
  exact ⟨market, step, accounts⟩

/-! ## Balance updates -/

omit [Libmpdec] in
theorem UpdateArgs.WellFormed.known {a : UpdateArgs} (wf : a.WellFormed) :
    ∃ type, getAssetType a.asset = some type ∧ assetPrec a.asset = type.precSave := by
  have prec := wf.changeDigits.nonneg
  cases asset : getAssetType a.asset with
  | none =>
      unfold assetPrec at prec
      rw [asset] at prec
      exact absurd prec (by decide)
  | some type => exact ⟨type, rfl, assetPrec_of_some asset⟩

/-- A balance call that answers changes one available balance, by the change
asked for when that has no more digits than the context. -/
theorem UpdateArgs.call_posts {a : UpdateArgs} (wf : a.WellFormed) {l l' : Ledger} {result : Mpd}
    (sound : l.Sound) (call : a.call l = (some result, l')) (exact : l'.exact = true) :
    ∃ q, l.Posts l' (Finsupp.single ⟨a.userId, .available, a.asset⟩ q) ∧
      (SigDigits mpdCtx a.change.value → q = a.change.value) := by
  obtain ⟨type, known, same⟩ := wf.known
  have prec := wf.changeDigits.nonneg
  have changeDigits := wf.changeDigits
  rw [same] at prec changeDigits
  have finite := Libmpdec.abs_finite wf.changeFinite
  have sign := mpdCmp_ge_zero wf.changeFinite mpdZero_isFinite
  rw [mpdZero_value] at sign
  unfold UpdateArgs.call at call
  split at call
  · rename_i credit
    obtain ⟨result', l'', added, posts⟩ := balanceAdd_posts sound
      ⟨a.userId, .available, a.asset⟩ known prec finite
      ((Libmpdec.abs_rounds wf.changeFinite).nonneg (abs_nonneg _))
    rw [call] at added
    obtain ⟨_, rfl⟩ := Prod.mk.inj added
    refine ⟨_, posts exact, fun digits => ?_⟩
    rw [mpdAbs_exact wf.changeFinite digits, abs_of_nonneg (sign.mp credit),
      changeDigits.truncateAt_eq]
  · rename_i debit
    refine ⟨_, balanceSub_answered sound known prec finite call exact, fun digits => ?_⟩
    have neg : a.change.value < 0 := not_le.mp (sign.not.mp debit)
    have grid : OnGrid (-type.precSave) (-a.change.value) := changeDigits.onGrid.neg
    rw [mpdAbs_exact wf.changeFinite digits, abs_of_neg neg, raiseAt_of_onGrid grid, neg_neg]

/-- A balance update leaves the markets and the frozen balances alone. -/
theorem EngineInv.update (inv : EngineInv e) {a : UpdateArgs} (wf : a.WellFormed)
    (run : updateUserBalance real now padding e a = (0, e'))
    (exact : e'.world.ledger.exact = true) : Kept e e' := by
  rcases updateUserBalance_cases real now padding e a with
    repeated | refused | ⟨result, ledger, first, second, _, call, updated⟩
  · exact absurd (repeated.symm.trans run) (by simp)
  · exact absurd (refused.symm.trans run) (by simp)
  obtain ⟨_, rfl⟩ := Prod.mk.inj (updated.symm.trans run)
  simp only [World.emit_ledger] at exact
  obtain ⟨q, posts, _⟩ := a.call_posts wf inv.sound call exact
  have same : ∀ w : World, w.heap = e.world.heap → w.nextRef = e.world.nextRef →
      w.orderIdStart = e.world.orderIdStart → w.ledger = ledger →
      w.ignored = e.world.ignored → Kept e { e with
        world := w
        updates := dictReplace e.updates
          (updateKey padding a.userId a.asset a.business a.businessId) now } := by
    intro w heap nextRef orderId same ignored
    refine ⟨⟨inv.named, ?_, ?_, ?_, ?_⟩, ignored⟩
    · intro name m found
      exact ((inv.market found).beside nextRef.ge orderId.ge fun _ => by rw [heap]).1
    · intro n n' m m' x x' o o' found found' rests rests'
      simp only [heap] at rests rests'
      exact inv.apart found found' rests rests'
    · exact same ▸ posts.sound
    · intro user asset
      simp only [same, heap]
      rw [posts.holds, single_type_ne (show BalanceType.freeze ≠ .available by decide), add_zero]
      exact inv.backed user asset
  refine same _ ?_ ?_ ?_ ?_ ?_
  · rw [World.emit_heap, World.emit_heap]
  · rw [(World.emit_sameOrders _ _ _).nextRef, (World.emit_sameOrders _ _ _).nextRef]
  · rw [(World.emit_sameOrders _ _ _).orderIdStart, (World.emit_sameOrders _ _ _).orderIdStart]
  · rw [World.emit_ledger, World.emit_ledger]
  · rw [World.emit_ignored, World.emit_ignored]

/-! ## Every step -/

theorem handle_kept {command : Command} (inv : EngineInv e) (wellFormed : command.WellFormed e)
    (run : e.handle now fuel command = some (reply, e')) (exact : e'.world.ledger.exact = true) :
    Kept e e' := by
  cases command with
  | balanceUpdate padding params =>
      rcases onCmdBalanceUpdate_cases (Option.some.inj run) with
        ⟨_, rfl⟩ |
          ⟨user, business, businessId, change, detail, a, e₁, rfl, _, read, updated, _, rfl⟩
      · exact .of_eq inv rfl rfl
      · have kept := inv.update (wellFormed a read) updated exact
        exact ⟨kept.inv.of_eq rfl rfl, kept.ignored⟩
  | orderPutLimit params =>
      rcases onCmdOrderPutLimit_cases run with ⟨_, rfl⟩ | ⟨a, st', read, put, _, _, rfl⟩
      · exact .of_eq inv rfl rfl
      · obtain ⟨found, step, _⟩ := inv.limit read (wellFormed a read) put exact
        exact .install inv found step rfl rfl
  | orderPutMarket params =>
      rcases onCmdOrderPutMarket_cases run with ⟨_, rfl⟩ | ⟨a, best, st', read, put, _, _, rfl⟩
      · exact .of_eq inv rfl rfl
      · obtain ⟨found, step, _⟩ := inv.marketOrder read (wellFormed a read) put exact
        exact .install inv found step rfl rfl
  | orderCancel params =>
      rcases onCmdOrderCancel_cases (Option.some.inj run) with
        ⟨_, rfl⟩ | ⟨a, ref, order, read, found, _, _, rfl⟩
      · exact .of_eq inv rfl rfl
      · obtain ⟨market, step, _⟩ := inv.cancel read found exact
        exact .install inv market step rfl rfl

theorem loadOper_kept {method : String} (inv : EngineInv e) (wellFormed : LoggedWellFormed e params)
    (run : loadOper now fuel padding e method params = some (some e'))
    (exact : e'.world.ledger.exact = true) : Kept e e' := by
  unfold loadOper at run
  split at run
  · rcases loadUpdateBalance_cases (Option.some.inj run) with
      rfl | ⟨user, business, businessId, change, detail, a, rfl, _, read, updated⟩
    · exact .of_eq inv rfl rfl
    · exact inv.update (wellFormed.update rfl read) updated exact
  split at run
  · rcases loadLimitOrder_cases run with rfl | ⟨a, st', read, put, _, rfl⟩
    · exact .of_eq inv rfl rfl
    · obtain ⟨found, step, _⟩ := inv.limit read (wellFormed.limit read) put exact
      exact .install inv found step rfl rfl
  split at run
  · rcases loadMarketOrder_cases run with rfl | ⟨a, best, st', read, put, _, rfl⟩
    · exact .of_eq inv rfl rfl
    · obtain ⟨found, step, _⟩ := inv.marketOrder read (wellFormed.market read) put exact
      exact .install inv found step rfl rfl
  split at run
  · rcases loadCancelOrder_cases (Option.some.inj run) with rfl | ⟨a, ref, order, read, found, rfl⟩
    · exact .of_eq inv rfl rfl
    · obtain ⟨market, step, _⟩ := inv.cancel read found exact
      exact .install inv market step rfl rfl
  · cases run

/-- One step keeps the invariant and drops no `NULL`. -/
theorem Step.kept (step : Step e e') (inv : EngineInv e) : Kept e e' := by
  cases step with
  | command wellFormed run exact => exact handle_kept inv wellFormed run exact
  | replay wellFormed run exact => exact loadOper_kept inv wellFormed run exact
  | timer now => exact .of_eq inv rfl rfl

/-- So does a whole run. -/
theorem Run.kept (run : Run e e') (inv : EngineInv e) : Kept e e' := by
  induction run with
  | refl => exact .of_eq inv rfl rfl
  | tail _ step ih =>
      have kept := step.kept ih.inv
      exact ⟨kept.inv, kept.ignored.trans ih.ignored⟩

/-- Handle commands one after the other while they are well formed, return and
round nothing. -/
def Engine.handleAll (now : Time) (fuel : ℕ) (e : Engine) : List Command → Option Engine
  | [] => some e
  | command :: rest =>
      if command.WellFormed e then
        match e.handle now fuel command with
        | none => none
        | some (_, e') => if e'.world.ledger.exact then e'.handleAll now fuel rest else none
      else none

/-- What holds of each command handled holds of all in turn. -/
theorem Engine.handleAll_chain {R : Engine → Engine → Prop}
    (one : ∀ {e e' command reply}, Command.WellFormed e command →
      e.handle now fuel command = some (reply, e') → e'.world.ledger.exact = true → R e e')
    {commands : List Command} : ∀ {e : Engine},
      e.handleAll now fuel commands = some e' → Relation.ReflTransGen R e e' := by
  induction commands with
  | nil =>
      intro e handled
      obtain rfl := Option.some.inj handled
      exact .refl
  | cons command rest ih =>
      intro e handled
      unfold Engine.handleAll at handled
      split at handled
      · rename_i wellFormed
        split at handled
        · cases handled
        rename_i reply next run
        split at handled
        · rename_i exact
          exact .head (one wellFormed run exact) (ih handled)
        · cases handled
      · cases handled

theorem Engine.handleAll_run {commands : List Command}
    (handled : e.handleAll now fuel commands = some e') : Run e e' :=
  Engine.handleAll_chain (fun wellFormed run exact => .command wellFormed run exact) handled

/-! ## Returning -/

/-- A well formed limit order is answered after at most one turn for each order
on the other side. -/
theorem MarketInv.limit_returns {a : LimitArgs} (inv : MarketInv a.market w)
    (finite : a.amount.isFinite) (nonneg : 0 ≤ a.amount.value) (real : Bool) (now : Time)
    (bound : (a.market.book a.side.opposite).length < fuel) :
    ∃ outcome, a.put real now fuel w = some outcome := by
  have observed := w.observeRequire_observed a.side a.amount a.price
  have market : (a.start now w).market = a.market := rfl
  have heap : (a.start now w).world.heap = w.heap := observed.heap
  have returns : ∃ st', execute real now fuel (limitRule a.side) (a.start now w) = some st' := by
    apply execute_returns (limitRule_sane a.side)
    · rw [market, heap]
      exact inv.index.toBookInv
    · exact ⟨finite, nonneg⟩
    · intro ref o rests
      rw [market, heap] at rests
      exact (inv.resting rests).sane
    · rwa [limitRule_side, market]
  rcases returns with ⟨st', executed⟩
  unfold LimitArgs.put
  simp only [marketPutLimitOrder]
  split
  · exact ⟨_, rfl⟩
  split
  · exact ⟨_, rfl⟩
  refine ⟨restOrFinish real st', Option.map_eq_some_iff.mpr ⟨st', ?_, rfl⟩⟩
  rw [← executed]
  unfold LimitArgs.start limitStart
  cases a.side <;> rfl

/-- So is a market order. -/
theorem MarketInv.market_returns {a : MarketArgs} (inv : MarketInv a.market w)
    (finite : a.amount.isFinite) (nonneg : 0 ≤ a.amount.value) (real : Bool) (now : Time)
    (bound : (a.market.book a.side.opposite).length < fuel) :
    ∃ outcome, a.put real now fuel w = some outcome := by
  unfold MarketArgs.put
  simp only [marketPutMarketOrder]
  split
  · exact ⟨_, rfl⟩
  split
  · exact ⟨_, rfl⟩
  rename_i node head
  obtain ⟨best, rests, _⟩ := inv.index.rests_of_mem (List.mem_of_mem_head? head)
  rw [rests.1]
  simp only
  split
  · exact ⟨_, rfl⟩
  have observed := marketRequire_observed w a.market a.side best
  have market : (a.start now w best).market = a.market := rfl
  have heap : (a.start now w best).world.heap = w.heap := observed.heap
  have returns : ∃ st', execute real now fuel (marketRule a.side) (a.start now w best) =
      some st' := by
    apply execute_returns (marketRule_sane a.side)
    · rw [market, heap]
      exact inv.index.toBookInv
    · exact ⟨finite, nonneg⟩
    · intro ref o rests
      rw [market, heap] at rests
      exact (inv.resting rests).sane
    · rwa [marketRule_side, market]
  rcases returns with ⟨st', executed⟩
  refine ⟨finishMarket real st', Option.map_eq_some_iff.mpr ⟨st', ?_, rfl⟩⟩
  rw [← executed]
  unfold MarketArgs.start marketStart
  cases a.side <;> rfl

/-- Every well formed command is answered. -/
theorem handle_returns {command : Command} (inv : EngineInv e) (wellFormed : command.WellFormed e)
    (now : Time) :
    ∃ bound, ∀ fuel, bound < fuel → ∃ answer, e.handle now fuel command = some answer := by
  cases command with
  | balanceUpdate padding params => exact ⟨0, fun _ _ => ⟨_, rfl⟩⟩
  | orderCancel params => exact ⟨0, fun _ _ => ⟨_, rfl⟩⟩
  | orderPutLimit params =>
      cases read : readLimitArgs liveTooLong e.markets params with
      | error _ => exact ⟨0, fun _ _ => ⟨(invalidArgument, e), by
          simp only [Engine.handle, onCmdOrderPutLimit, read]⟩⟩
      | ok a =>
          have wf := wellFormed a read
          obtain ⟨found, terms⟩ := wf.terms read
          refine ⟨(a.market.book a.side.opposite).length, fun fuel bound => ?_⟩
          obtain ⟨outcome, put⟩ := (inv.market found).limit_returns wf.amountFinite
            terms.amountPos.le true now bound
          unfold LimitArgs.put at put
          exact ⟨_, by
            simp only [Engine.handle, onCmdOrderPutLimit, read, put, Option.map_some]
            rfl⟩
  | orderPutMarket params =>
      cases read : readMarketArgs liveTooLong e.markets params with
      | error _ => exact ⟨0, fun _ _ => ⟨(invalidArgument, e), by
          simp only [Engine.handle, onCmdOrderPutMarket, read]⟩⟩
      | ok a =>
          have wf := wellFormed a read
          obtain ⟨found, terms⟩ := wf.terms read
          refine ⟨(a.market.book a.side.opposite).length, fun fuel bound => ?_⟩
          obtain ⟨outcome, put⟩ := (inv.market found).market_returns wf.amountFinite
            terms.amountPos.le true now bound
          unfold MarketArgs.put at put
          exact ⟨_, by
            simp only [Engine.handle, onCmdOrderPutMarket, read, put, Option.map_some]
            rfl⟩

/-! ## The start -/

omit [Libmpdec] in
/-- Every market of a started engine was accepted by `market_create`. -/
theorem initTrade_created {markets : Dict String Market} (init : initTrade = some markets)
    {m : Market} (found : dictFind markets name = some m) :
    ∃ conf ∈ Settings.markets, conf.name = name ∧ marketCreate conf = some m := by
  have created (confs : List MarketConf) : ∀ dict result : Dict String Market,
      confs.foldlM (fun dict conf =>
        (marketCreate conf).map fun m => (dictAdd dict conf.name m).getD dict) dict =
          some result →
      (∀ conf ∈ confs, conf ∈ Settings.markets) →
      (∀ {name m}, dictFind dict name = some m →
        ∃ conf ∈ Settings.markets, conf.name = name ∧ marketCreate conf = some m) →
      ∀ {name m}, dictFind result name = some m →
        ∃ conf ∈ Settings.markets, conf.name = name ∧ marketCreate conf = some m := by
    induction confs with
    | nil =>
        intro dict result run _ before
        obtain rfl := Option.some.inj run
        exact before
    | cons conf confs ih =>
        intro dict result run configured before
        rw [List.foldlM_cons, Option.bind_eq_bind, Option.bind_eq_some_iff] at run
        obtain ⟨next, step, rest⟩ := run
        obtain ⟨new, create, rfl⟩ := Option.map_eq_some_iff.mp step
        have later (other : MarketConf) (mem : other ∈ confs) :=
          configured other (List.mem_cons_of_mem conf mem)
        intro name m found'
        refine ih _ result rest later ?_ found'
        intro name m found
        cases present : dictFind dict conf.name with
        | some old =>
            rw [dictAdd_of_present present, Option.getD_none] at found
            exact before found
        | none =>
            rw [dictAdd_of_fresh present, Option.getD_some] at found
            by_cases same : name = conf.name
            · subst same
              rw [dictFind_replace] at found
              exact ⟨conf, configured conf List.mem_cons_self, rfl, Option.some.inj found ▸ create⟩
            · rw [dictFind_replace_ne same] at found
              exact before found
  exact created Settings.markets ∅ markets init (fun _ mem => mem) (by simp) found

omit [Libmpdec] in
/-- Markets just created, with no orders and no balances. -/
theorem EngineInv.of_created (created : ∀ {name m}, dictFind e.markets name = some m →
      ∃ conf, conf.name = name ∧ marketCreate conf = some m)
    (empty : e.world.ledger.balances = ∅) : EngineInv e := by
  have none {n : String} {m : Market} (found : dictFind e.markets n = some m) (x : Ref)
      (o : Order) : ¬ m.Rests e.world.heap x o := by
    obtain ⟨conf, _, create⟩ := created found
    obtain ⟨_, rfl⟩ := marketCreate_ok create
    rintro ⟨_, mem⟩
    cases side : o.side <;> simp [Market.book, side] at mem
  refine ⟨?_, ?_, ?_, ?_, ?_⟩
  · intro n m found
    obtain ⟨conf, named, create⟩ := created found
    exact (marketCreate_inv create e.world).1.trans named
  · intro n m found
    obtain ⟨conf, _, create⟩ := created found
    exact (marketCreate_inv create e.world).2
  · intro n n' m m' x x' o o' found found' rests
    exact absurd rests (none found x o)
  · intro key entry found
    rw [empty, dictFind_empty] at found
    cases found
  · intro user asset
    rw [Ledger.holds_of_none (by rw [empty, dictFind_empty])]
    refine (List.sum_eq_zero fun term mem => ?_).symm
    obtain ⟨entry, entryMem, rfl⟩ := List.mem_map.mp mem
    obtain ⟨conf, _, create⟩ := created (mem_entries_iff.mp entryMem)
    obtain ⟨_, market⟩ := marketCreate_ok create
    rw [market]
    simp [Market.frozen, Market.userList]

omit [Libmpdec] in
/-- A started engine keeps the invariant. -/
theorem engineStart_inv (start : Engine.start = some e) : EngineInv e ∧ e.world.ignored = 0 := by
  unfold Engine.start at start
  split at start
  · cases start
  obtain ⟨markets, init, rfl⟩ := Option.map_eq_some_iff.mp start
  refine ⟨.of_created (fun found => ?_) rfl, rfl⟩
  obtain ⟨conf, _, created⟩ := initTrade_created init found
  exact ⟨conf, created⟩

/-! ## What is frozen is backed -/

/-- Over every run from empty balances, what a user has frozen is what its open
orders freeze, an ask its rest and a bid the money for it. No balance call whose
result is dropped ever answers `NULL`, and every further command is answered. -/
theorem frozen_backed {e₀ : Engine} (start : Engine.start = some e₀) (run : Run e₀ e) :
    (∀ user asset, e.world.ledger.holds ⟨user, .freeze, asset⟩ =
      frozenBy e.markets e.world.heap user asset) ∧
    (∀ {name m ref o}, dictFind e.markets name = some m → m.Rests e.world.heap ref o →
      o.freeze.isFinite ∧ o.freeze.value =
        match o.side with
        | .ask => o.left.value
        | .bid => o.price.value * o.left.value) ∧
    e.world.ignored = 0 ∧
    ∀ {command : Command}, command.WellFormed e → ∀ now, ∃ bound, ∀ fuel, bound < fuel →
      ∃ answer, e.handle now fuel command = some answer := by
  obtain ⟨startInv, ignored⟩ := engineStart_inv start
  have kept := run.kept startInv
  refine ⟨kept.inv.backed, ?_, kept.ignored.trans ignored, ?_⟩
  · intro name m ref o found rests
    have resting := (kept.inv.market found).resting rests
    exact ⟨resting.freezeFinite, resting.freeze⟩
  · intro command wellFormed now
    exact handle_returns kept.inv wellFormed now

end Runs

/-! ## A small engine -/

/-- Two assets and one market. -/
@[reducible]
def smallSettings : Settings where
  assets := [⟨"BTC", 12, 8, by decide +kernel⟩, ⟨"CNY", 16, 8, by decide +kernel⟩]
  markets := [⟨"BTCCNY", "BTC", "CNY", 4, 8, 8, .finite false 1 (-3)⟩]

section Small

attribute [local instance] smallSettings Libmpdec.reference

def smallStart : Engine :=
  Engine.start.get (by decide +kernel)

/-- A deposit of `amount`. -/
def deposit (user : ℤ) (asset amount : String) (id : ℤ) : Command :=
  .balanceUpdate 0
    [.integer user, .string asset, .string "deposit", .integer id, .string amount, .object []]

/-- A limit order in the small market. -/
def putLimit (user : ℤ) (side : Side) (amount price : String) : Command :=
  .orderPutLimit [.integer user, .string "BTCCNY", .integer side.code, .string amount,
    .string price, .string "0.001", .string "0.002", .string "web"]

/-- Two deposits and a resting ask. -/
def smallBefore : Engine :=
  (smallStart.handleAll 0 10
    [deposit 1 "BTC" "5" 1, deposit 2 "CNY" "100" 2, putLimit 1 .ask "2" "10"]).get
    (by decide +kernel)

/-- A bid that is filled in part. -/
def smallTaker : Command :=
  putLimit 2 .bid "3" "12"

def smallAnswer : Reply × Engine :=
  (smallBefore.handle 0 10 smallTaker).get (by decide +kernel)

def smallEngine : Engine :=
  smallAnswer.2

theorem smallStart_eq : Engine.start = some smallStart :=
  (Option.some_get _).symm

theorem smallBefore_eq : smallStart.handleAll 0 10
    [deposit 1 "BTC" "5" 1, deposit 2 "CNY" "100" 2, putLimit 1 .ask "2" "10"] =
      some smallBefore :=
  (Option.some_get _).symm

theorem smallBefore_run : Run smallStart smallBefore :=
  Engine.handleAll_run smallBefore_eq

theorem smallAnswer_eq : smallBefore.handle 0 10 smallTaker = some smallAnswer :=
  (Option.some_get _).symm

theorem smallAnswer_order : ∃ info, smallAnswer = (.order info, smallEngine) := by
  have accepted : (match smallAnswer.1 with | .order _ => true | _ => false) = true := by
    decide +kernel
  cases reply : smallAnswer.1 with
  | order info => exact ⟨info, Prod.ext reply rfl⟩
  | error | success =>
      rw [reply] at accepted
      cases accepted

theorem smallTaker_wellFormed : smallTaker.WellFormed smallBefore := by
  decide +kernel

theorem smallEngine_exact : smallEngine.world.ledger.exact = true := by
  decide +kernel

theorem smallEngine_run : Run smallStart smallEngine :=
  smallBefore_run.tail (.command smallTaker_wellFormed smallAnswer_eq smallEngine_exact)

/-- Three asks at ten and eleven, and one at twelve; four bids at seven, eight and nine. -/
def deepCommands : List Command :=
  [deposit 1 "BTC" "50" 1, deposit 2 "CNY" "1000" 2,
    putLimit 1 .ask "2" "11", putLimit 1 .ask "3" "10", putLimit 1 .ask "1" "12",
    putLimit 1 .ask "2" "10", putLimit 2 .bid "1" "8", putLimit 2 .bid "2" "9",
    putLimit 2 .bid "3" "9", putLimit 2 .bid "1" "7"]

def deepEngine : Engine :=
  (smallStart.handleAll 0 10 deepCommands).get (by decide +kernel)

theorem deepEngine_run : Run smallStart deepEngine :=
  Engine.handleAll_run (Option.some_get _).symm

def deepMarket : Market :=
  (dictFind deepEngine.markets "BTCCNY").get (by decide +kernel)

theorem deepMarket_found : dictFind deepEngine.markets "BTCCNY" = some deepMarket :=
  (Option.some_get _).symm

theorem deepMarket_inv : MarketInv deepMarket deepEngine.world :=
  (deepEngine_run.kept (engineStart_inv smallStart_eq).1).inv.market deepMarket_found

/-- The bid has one unit left at a price of twelve. -/
theorem frozen_backed_small : smallEngine.world.ledger.holds ⟨2, .freeze, "CNY"⟩ = 12 ∧
    smallEngine.world.ignored = 0 := by
  obtain ⟨backed, _, ignored, _⟩ := frozen_backed smallStart_eq smallEngine_run
  refine ⟨?_, ignored⟩
  rw [backed]
  decide +kernel

end Small

end ViabtcServer.MatchEngine
