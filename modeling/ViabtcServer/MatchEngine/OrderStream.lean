import ViabtcServer.MatchEngine.Arithmetic
import ViabtcServer.MatchEngine.OrderFeed

/-!
# The order stream of a run

After every command of a live run that rounds nothing, following the order
messages from the start gives exactly the open orders of all markets.
-/

namespace ViabtcServer.MatchEngine

open Decimal Container

section Stream

variable [Settings] {e e' : Engine} {name : String} {m : Market} {outcome : Outcome} {id : ℕ}
  {shown : Order}

/-! ## All markets -/

/-- An open order of a market other than `name`. -/
def Engine.ShowsBeside (e : Engine) (name : String) (id : ℕ) (shown : Order) : Prop :=
  ∃ other m, other ≠ name ∧ dictFind e.markets other = some m ∧ m.Shows e.world.heap id shown

/-- The feed is in order and tells of the open orders of all markets as present. -/
structure Engine.Told (e : Engine) : Prop where
  live : ∀ {id shown}, stageOf e.world.feed id = some (.live shown) ↔ e.Shows id shown
  unseen : ∀ {id}, stageOf e.world.feed id = some .unseen ↔ id = 0 ∨ e.world.orderIdStart < id
  ordered : ∀ id, ∃ stage, stageOf e.world.feed id = some stage

omit [Settings] in
theorem Engine.Told.of_eq (told : e.Told) (markets : e'.markets = e.markets)
    (feed : e'.world.feed = e.world.feed) (heap : e'.world.heap = e.world.heap)
    (orderId : e'.world.orderIdStart = e.world.orderIdStart) : e'.Told where
  live := by
    unfold Engine.Shows
    rw [feed, markets, heap]
    exact told.live
  unseen := by
    rw [feed, orderId]
    exact told.unseen
  ordered := by
    rw [feed]
    exact told.ordered

/-- On the way from `e` to `e'` the feed went on and is in order. -/
structure Engine.Tells (e e' : Engine) : Prop where
  told : e'.Told
  grown : e.world.feed <+: e'.world.feed

omit [Settings] in
theorem Engine.Tells.of_eq {e'' : Engine} (tells : e.Tells e') (markets : e''.markets = e'.markets)
    (world : e''.world = e'.world) : e.Tells e'' where
  told := tells.told.of_eq markets (congrArg World.feed world) (congrArg World.heap world)
    (congrArg World.orderIdStart world)
  grown := by
    rw [world]
    exact tells.grown

omit [Settings] in
theorem Engine.shows_iff (found : dictFind e.markets name = some m) :
    e.Shows id shown ↔ e.ShowsBeside name id shown ∨ m.Shows e.world.heap id shown := by
  constructor
  · rintro ⟨other, n, found', shows_⟩
    by_cases same : other = name
    · subst same
      obtain rfl : m = n := Option.some.inj (found.symm.trans found')
      exact Or.inr shows_
    · exact Or.inl ⟨other, n, same, found', shows_⟩
  · rintro (⟨other, n, _, found', shows_⟩ | shows_)
    · exact ⟨other, n, found', shows_⟩
    · exact ⟨name, m, found, shows_⟩

/-- Orders of different markets have different ids. -/
theorem EngineInv.shows_apart (inv : EngineInv e) (found : dictFind e.markets name = some m)
    {shown' : Order} (other : e.ShowsBeside name id shown) :
    ¬ m.Shows e.world.heap id shown' := by
  rintro ⟨ref, o, rests, own, rfl⟩
  obtain ⟨name', n, differ, found', ref', o', rests', id', rfl⟩ := other
  obtain rfl := inv.apart found' found rests' rests (id'.trans own.symm)
  obtain rfl := rests.eq rests'.1
  have named := ((inv.market found).resting rests).market
  have named' := ((inv.market found').resting rests').market
  rw [inv.named found] at named
  rw [inv.named found'] at named'
  exact differ (named'.symm.trans named)

theorem Engine.Told.of_market (told : e.Told) (inv : EngineInv e)
    (found : dictFind e.markets name = some m) :
    MatchEngine.Told e.world.feed (e.ShowsBeside name) (e.world.orderIdStart + 1) m e.world where
  grown := List.prefix_rfl
  live := told.live.trans (Engine.shows_iff found)
  unseen := told.unseen
  ordered := told.ordered
  apart := inv.shows_apart found

/-- A command on one market leaves the orders of the others as they are. -/
theorem EngineInv.install_beside (inv : EngineInv e) (found : dictFind e.markets name = some m)
    (step : MarketStep (e.heldBeside name) m outcome.market e.world outcome.world) :
    (e.install name outcome).ShowsBeside name id shown ↔ e.ShowsBeside name id shown := by
  have kept {other : String} {n : Market} (differ : other ≠ name)
      (found' : dictFind e.markets other = some n) :
      n.Shows outcome.world.heap id shown ↔ n.Shows e.world.heap id shown := by
    have same {x : Ref} {o : Order} (rests : n.Rests e.world.heap x o) :=
      inv.heap_beside found step differ found' rests
    have back {x : Ref} {o : Order} (rests : n.Rests outcome.world.heap x o) :
        n.Rests e.world.heap x o :=
      ((inv.market found').beside step.nextRef_le step.orderId_le same).2 rests
    constructor
    · rintro ⟨ref, o, rests, shows_⟩
      exact ⟨ref, o, back rests, shows_⟩
    · rintro ⟨ref, o, rests, shows_⟩
      exact ⟨ref, o, ⟨(same rests).trans rests.1, rests.2⟩, shows_⟩
  constructor
  · rintro ⟨other, n, differ, found', shows_⟩
    rw [Engine.install, dictFind_replace_ne differ] at found'
    exact ⟨other, n, differ, found', (kept differ found').mp shows_⟩
  · rintro ⟨other, n, differ, found', shows_⟩
    refine ⟨other, n, differ, ?_, (kept differ found').mpr shows_⟩
    rw [Engine.install, dictFind_replace_ne differ]
    exact found'

theorem EngineInv.install_told (inv : EngineInv e) (found : dictFind e.markets name = some m)
    (step : MarketStep (e.heldBeside name) m outcome.market e.world outcome.world)
    (told : MatchEngine.Told e.world.feed (e.ShowsBeside name) (outcome.world.orderIdStart + 1)
      outcome.market outcome.world) :
    e.Tells (e.install name outcome) := by
  refine ⟨⟨?_, told.unseen, told.ordered⟩, told.grown⟩
  intro id shown
  have installed : dictFind (e.install name outcome).markets name = some outcome.market := by
    rw [Engine.install, dictFind_replace]
  rw [Engine.shows_iff installed, inv.install_beside found step]
  exact told.live

/-! ## Commands -/

section Commands

variable [Libmpdec] {now : Time} {fuel padding : ℕ} {params : List Json} {reply : Reply}

omit [Settings] [Libmpdec] in
/-- Before its loop a new order has said nothing. -/
theorem Starts.told {old : List (Notice ℕ Order)} {beside : ℕ → Order → Prop}
    {w observed : World} {order : Order}
    (told : Told old beside (w.orderIdStart + 1) m w) (same : w.Observed observed) :
    Told old beside (w.orderIdStart + 1) m (orderStart m observed order).world :=
  told.mute (.of_out same.out) same.heap

theorem orderPut_orderIdStart (m : Market) (w : World) (order : Order) :
    (orderPut m w order).2.2.orderIdStart = w.orderIdStart := by
  simp only [orderPut]
  split
  · rfl
  split
  · rfl
  split
  · rfl
  split
  · rfl
  exact (World.observeFreeze_sameOrders _ order).orderIdStart

theorem restOrFinish_orderIdStart (real : Bool) (st : LoopState) :
    (restOrFinish real st).world.orderIdStart = st.world.orderIdStart := by
  simp only [restOrFinish]
  split
  · exact (World.emit_sameOrders _ _ _).orderIdStart.trans
      (World.emit_sameOrders _ _ _).orderIdStart
  · exact (orderPut_orderIdStart _ _ _).trans (World.emit_sameOrders _ _ _).orderIdStart

omit [Settings] [Libmpdec] in
theorem finishMarket_orderIdStart (real : Bool) (st : LoopState) :
    (finishMarket real st).world.orderIdStart = st.world.orderIdStart :=
  (World.emit_sameOrders _ _ _).orderIdStart.trans (World.emit_sameOrders _ _ _).orderIdStart

/-- The rest of a limit order is announced, whatever it was filled with before. -/
theorem EngineInv.limit_told (inv : EngineInv e) (told : e.Told) {a : LimitArgs}
    {tooLong : String → Bool} {st' : LoopState}
    (read : readLimitArgs tooLong e.markets params = .ok a) (wf : a.WellFormed)
    (put : a.put true now fuel e.world = some (restOrFinish true st'))
    (executed : execute true now fuel (limitRule a.side) (a.start now e.world) = some st')
    (exact : (restOrFinish true st').world.ledger.exact = true) :
    e.Tells (e.install a.name (restOrFinish true st')) := by
  obtain ⟨found, terms⟩ := wf.terms read
  obtain ⟨_, step, _⟩ := inv.limit read wf put exact
  rcases marketPutLimitOrder_cases put with ⟨code, codes, refused⟩ | ⟨covered, _⟩
  · have ret := restOrFinish_ret true st'
    rw [refused] at ret
    obtain rfl : code = 0 := ret
    exact absurd codes (by decide)
  have marketInv := inv.market found
  have observed := e.world.observeRequire_observed a.side a.amount a.price
  obtain ⟨ok, need, fair, takes, _, needs⟩ := limitRule_fair a.side
  have start := limitStart_trading_of_run fair takes needs marketInv inv.sound
    (inv.backed_beside found) terms covered executed (restOrFinish_exact exact)
  obtain ⟨trading, progress⟩ := execute_trading fair (inv.heldBeside_nonneg a.name) start executed
    (restOrFinish_exact exact)
  have starts : Starts a.market e.world (a.start now e.world) :=
    orderStart_starts observed (congrArg (· + 1) observed.orderIdStart)
  have started : MatchEngine.Told e.world.feed (e.ShowsBeside a.name) (e.world.orderIdStart + 1)
      (a.start now e.world).market (a.start now e.world).world :=
    Starts.told (told.of_market inv found) observed
  have matched := execute_told fair.toSane started start.index.toBookInv executed
  have rested := matched.restOrFinish (Nat.succ_pos _)
    (progress.taker.id.trans starts.takerId) trading.index progress.taker.type
    (progress.taker.price ▸ terms.priceFinite) (trading.unused marketInv starts progress).1
  apply inv.install_told found step
  have orderId : (restOrFinish true st').world.orderIdStart = e.world.orderIdStart + 1 := by
    rw [restOrFinish_orderIdStart]
    exact progress.orderIdStart.trans starts.orderId
  rw [orderId]
  exact rested

/-- A market order is announced when it is finished. -/
theorem EngineInv.marketOrder_told (inv : EngineInv e) (told : e.Told) {a : MarketArgs}
    {tooLong : String → Bool} {best : Order} {st' : LoopState}
    (read : readMarketArgs tooLong e.markets params = .ok a) (wf : a.WellFormed)
    (put : a.put true now fuel e.world = some (finishMarket true st'))
    (executed : execute true now fuel (marketRule a.side) (a.start now e.world best) = some st')
    (exact : (finishMarket true st').world.ledger.exact = true) :
    e.Tells (e.install a.name (finishMarket true st')) := by
  obtain ⟨found, terms⟩ := wf.terms read
  obtain ⟨_, step, _⟩ := inv.marketOrder read wf put exact
  rcases marketPutMarketOrder_cases put with ⟨code, codes, refused⟩ | ⟨covered, _⟩
  · have ret : (finishMarket true st').ret = 0 := rfl
    rw [refused] at ret
    obtain rfl : code = 0 := ret
    exact absurd codes (by decide)
  have marketInv := inv.market found
  have observed := marketRequire_observed e.world a.market a.side best
  have resultExact : st'.world.ledger.exact = true := by simpa [finishMarket] using exact
  obtain ⟨ok, fair, takes⟩ := marketRule_fair a.side
  have start : Trading (marketRule a.side) ok (fun taker => taker.left.value)
      (e.heldBeside a.name) (a.start now e.world best) :=
    marketStart_trading best takes marketInv inv.sound (inv.backed_beside found) terms covered
  have progress := (execute_trading fair (inv.heldBeside_nonneg a.name) start executed
    resultExact).2
  have starts : Starts a.market e.world (a.start now e.world best) :=
    orderStart_starts observed (congrArg (· + 1) observed.orderIdStart)
  have started : MatchEngine.Told e.world.feed (e.ShowsBeside a.name) (e.world.orderIdStart + 1)
      (a.start now e.world best).market (a.start now e.world best).world :=
    Starts.told (told.of_market inv found) observed
  have matched := execute_told fair.toSane started start.index.toBookInv executed
  have finished := matched.finishMarket (Nat.succ_pos _)
    (progress.taker.id.trans starts.takerId)
  apply inv.install_told found step
  have orderId : (finishMarket true st').world.orderIdStart = e.world.orderIdStart + 1 := by
    rw [finishMarket_orderIdStart]
    exact progress.orderIdStart.trans starts.orderId
  rw [orderId]
  exact finished

theorem EngineInv.cancel_told (inv : EngineInv e) (told : e.Told) {a : CancelArgs} {ref : Ref}
    {order : Order} (read : readCancelArgs e.markets params = .ok a)
    (got : marketGetOrder a.market e.world a.orderId = some (ref, order))
    (exact : (marketCancelOrder true a.market e.world ref order).world.ledger.exact = true) :
    e.Tells (e.install a.name (marketCancelOrder true a.market e.world ref order)) := by
  obtain ⟨found, step, _⟩ := inv.cancel read got exact
  have index := (inv.market found).index
  have rests := (index.rests_of_get got).1
  have cancelled := (told.of_market inv found).cancel index.toBookInv rests
  have announced := e.world.emit_sameOrders true
    (.orderMessage .finish order a.market.stock a.market.money)
  have finished := orderFinish_finished true (announced.heap.symm ▸ index.toBookInv)
    (announced.heap.symm ▸ rests)
  apply inv.install_told found step
  have orderId : (marketCancelOrder true a.market e.world ref order).world.orderIdStart =
      e.world.orderIdStart :=
    finished.orderIdStart.trans announced.orderIdStart
  rw [orderId]
  exact cancelled

/-- A balance update writes a balance message only. -/
theorem Engine.Told.update (told : e.Told) {a : UpdateArgs}
    (updated : updateUserBalance true now padding e a = (0, e')) : e.Tells e' := by
  obtain ⟨result, ledger, detail, _, world⟩ := updateUserBalance_written updated
  have markets : e'.markets = e.markets := by
    rcases updateUserBalance_cases true now padding e a with
      repeated | uncovered | ⟨_, _, _, _, _, _, changed⟩
    · cases repeated.symm.trans updated
    · cases uncovered.symm.trans updated
    · rw [changed] at updated
      rw [← (Prod.mk.inj updated).2]
  have feed : e'.world.feed = e.world.feed := by
    rw [world, World.emit_mute _ true rfl, World.emit_mute _ true rfl]
    rfl
  refine ⟨told.of_eq markets feed ?_ ?_, feed ▸ List.prefix_rfl⟩
  · rw [world, World.emit_heap, World.emit_heap]
  · rw [world]
    exact (World.emit_sameOrders _ _ _).orderIdStart.trans
      (World.emit_sameOrders _ _ _).orderIdStart

/-- The feed tells of the open orders after every command. -/
theorem handle_told {command : Command} (inv : EngineInv e) (told : e.Told)
    (wellFormed : command.WellFormed e) (run : e.handle now fuel command = some (reply, e'))
    (exact : e'.world.ledger.exact = true) : e.Tells e' := by
  cases command with
  | balanceUpdate padding params =>
      rcases onCmdBalanceUpdate_cases (Option.some.inj run) with
        ⟨_, rfl⟩ |
          ⟨user, business, businessId, change, detail, a, e₁, rfl, _, read, updated, _, rfl⟩
      · exact ⟨told, List.prefix_rfl⟩
      · exact (told.update updated).of_eq rfl rfl
  | orderPutLimit params =>
      rcases onCmdOrderPutLimit_cases run with ⟨_, rfl⟩ | ⟨a, st', read, put, executed, _, rfl⟩
      · exact ⟨told, List.prefix_rfl⟩
      · exact (inv.limit_told told read (wellFormed a read) put executed exact).of_eq
          rfl rfl
  | orderPutMarket params =>
      rcases onCmdOrderPutMarket_cases run with
        ⟨_, rfl⟩ | ⟨a, best, st', read, put, executed, _, rfl⟩
      · exact ⟨told, List.prefix_rfl⟩
      · exact (inv.marketOrder_told told read (wellFormed a read) put executed exact).of_eq
          rfl rfl
  | orderCancel params =>
      rcases onCmdOrderCancel_cases (Option.some.inj run) with
        ⟨_, rfl⟩ | ⟨a, ref, order, read, found, _, _, rfl⟩
      · exact ⟨told, List.prefix_rfl⟩
      · exact (inv.cancel_told told read found exact).of_eq rfl rfl

/-! ## Runs -/

/-- A live run on well formed commands that rounds nothing. -/
abbrev ExactRun : Engine → Engine → Prop :=
  Relation.ReflTransGen fun e e' =>
    LiveStep Command.WellFormed e e' ∧ e'.world.ledger.exact = true

theorem ExactRun.tells (run : ExactRun e e') (inv : EngineInv e) (told : e.Told) :
    EngineInv e' ∧ e.Tells e' := by
  induction run with
  | refl => exact ⟨inv, told, List.prefix_rfl⟩
  | tail _ step ih =>
      obtain ⟨inv, tells⟩ := ih
      cases step.1 with
      | command wellFormed run =>
          have next := handle_told inv tells.told wellFormed run step.2
          exact ⟨(handle_kept inv wellFormed run step.2).inv, next.told,
            tells.grown.trans next.grown⟩
      | timer now => exact ⟨inv.of_eq rfl rfl, tells.of_eq rfl rfl⟩

omit [Libmpdec] in
/-- Nothing has been said about an engine just started. -/
theorem engineStart_told (start : Engine.start = some e) : e.Told := by
  unfold Engine.start at start
  split at start
  · cases start
  obtain ⟨markets, init, rfl⟩ := Option.map_eq_some_iff.mp start
  refine ⟨?_, ?_, fun id => ⟨.unseen, rfl⟩⟩
  · intro id shown
    constructor
    · nofun
    · rintro ⟨name, m, found, ref, o, ⟨live, _⟩, _⟩
      cases live
  · intro id
    constructor
    · intro _
      exact Nat.eq_zero_or_pos id
    · intro _
      rfl

/-- In every live run that rounds nothing, following the order messages gives
exactly the open orders of every market. An open order was put once and has been
updated since; a finished one has its finish as the last message, after a put or
alone when it never came to rest; an id not yet used has no message. -/
theorem order_stream {e₀ : Engine} (start : Engine.start = some e₀) (run : ExactRun e₀ e) :
    (∀ id shown, follow e.world.feed id = some shown ↔ e.Shows id shown) ∧
    (∀ name m id shown, dictFind e.markets name = some m → m.Shows e.world.heap id shown →
      shown.market = name) ∧
    (∀ id shown, e.Shows id shown → ∃ updates,
      changesOf e.world.feed id = .put :: List.replicate updates .update) ∧
    (∀ id, 0 < id → id ≤ e.world.orderIdStart → (∀ shown, ¬ e.Shows id shown) →
      (changesOf e.world.feed id = [.finish] ∧
        ∀ e₁, ExactRun e₀ e₁ → ExactRun e₁ e → ∀ shown, ¬ e₁.Shows id shown) ∨
      ∃ updates, changesOf e.world.feed id =
        .put :: List.replicate updates .update ++ [.finish]) ∧
    ∀ id, id = 0 ∨ e.world.orderIdStart < id → changesOf e.world.feed id = [] := by
  have inv₀ := (engineStart_inv start).1
  have told₀ := engineStart_told start
  obtain ⟨inv, told, _⟩ := run.tells inv₀ told₀
  refine ⟨?_, ?_, ?_, ?_, ?_⟩
  · intro id shown
    obtain ⟨stage, reached⟩ := told.ordered id
    rw [follow_of_stage reached, ← told.live, reached, Option.some.injEq]
    cases stage <;> simp [Stage.entry]
  · rintro name m id shown found ⟨ref, o, rests, rfl, rfl⟩
    exact ((inv.market found).resting rests).market.trans (inv.named found)
  · intro id shown shows_
    exact path_of_stage (told.live.mpr shows_)
  · intro id pos used gone
    obtain ⟨stage, reached⟩ := told.ordered id
    have path := path_of_stage reached
    cases stage with
    | unseen =>
        have unused := told.unseen.mp reached
        omega
    | live shown => exact absurd (told.live.mp reached) (gone shown)
    | closed =>
        rcases path with alone | rested
        · refine Or.inl ⟨alone, fun e₁ before after shown shows_ => ?_⟩
          obtain ⟨inv₁, told₁, _⟩ := before.tells inv₀ told₀
          obtain ⟨more, grown⟩ := (after.tells inv₁ told₁).2.grown
          rw [← grown] at alone
          exact not_live_of_finish alone (told₁.live.mpr shows_)
        · exact Or.inr rested
  · intro id unused
    exact path_of_stage (told.unseen.mpr unused)

end Commands

end Stream

/-! ## An ask that is filled -/

section Small

attribute [local instance] smallSettings Libmpdec.reference

theorem smallEngine_exactRun : ExactRun smallStart smallEngine := by
  have before : ExactRun smallStart smallBefore :=
    Engine.handleAll_chain (fun wellFormed run exact => ⟨.command wellFormed run, exact⟩)
      smallBefore_eq
  exact before.tail ⟨.command smallTaker_wellFormed smallAnswer_eq, smallEngine_exact⟩

/-- The ask has left the book, the bid is open. -/
theorem order_stream_small :
    (∀ shown, ¬ smallEngine.Shows 1 shown) ∧ changesOf smallEngine.world.feed 1 = [.put, .finish] ∧
      ∃ shown, smallEngine.Shows 2 shown ∧ changesOf smallEngine.world.feed 2 = [.put] := by
  obtain ⟨open_, _⟩ := order_stream smallStart_eq smallEngine_exactRun
  have closed : follow smallEngine.world.feed 1 = none := by decide +kernel
  have rests : (follow smallEngine.world.feed 2).isSome = true := by decide +kernel
  obtain ⟨shown, found⟩ := Option.isSome_iff_exists.mp rests
  refine ⟨fun shown shows_ => ?_, by decide +kernel, shown, (open_ 2 shown).mp found,
    by decide +kernel⟩
  have found := (open_ 1 shown).mpr shows_
  rw [closed] at found
  cases found

end Small

end ViabtcServer.MatchEngine
