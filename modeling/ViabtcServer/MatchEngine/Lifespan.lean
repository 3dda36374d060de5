import ViabtcServer.MatchEngine.OrderAccount
import ViabtcServer.MatchEngine.OrderStream

/-!
# The life of an order

An order is alive while it is the taker of a loop and while it rests. At every
moment of a run, between two commands, between two fills and between the two
halves of closing a maker, each limit order agrees with its fills.
-/

namespace ViabtcServer.MatchEngine

open Decimal Container

section Life

variable [Libmpdec] [Settings]

/-! ## Moments -/

/-- The body of a loop trades with the maker at the iterator. -/
structure MatchRule.Picks (rule : MatchRule) (st : LoopState) (node : Ref) (maker : Order)
    (w : World) (amount : Mpd) : Prop where
  unfinished : mpdCmp st.taker.left mpdZero ≠ 0
  live : st.world.heap node = some maker
  acceptable : rule.stops st.taker maker = false
  chosen : ∃ fuel, rule.volume fuel st maker = some (w, some amount)

/-- The iterator positions and states a loop passes through. -/
inductive Passes (real : Bool) (now : Time) (rule : MatchRule) (start : LoopState) :
    Option Ref → LoopState → Prop
  | start : Passes real now rule start
      (skiplistGetIterator (start.market.book rule.side.opposite)) start
  | fill {node : Ref} {st : LoopState} {maker : Order} {w : World} {amount : Mpd}
      (before : Passes real now rule start (some node) st)
      (picks : rule.Picks st node maker w amount) :
      Passes real now rule start (skiplistForward (st.market.book rule.side.opposite) node)
        (matchFill real now rule { st with world := w } node maker amount)

/-- The loops that well formed commands start: the market's name, the rule and
the state. -/
inductive Serves (e : Engine) (now : Time) : String → MatchRule → LoopState → Prop
  | limit {a : LimitArgs} {tooLong : String → Bool} {params : List Json}
      (read : readLimitArgs tooLong e.markets params = .ok a) (wellFormed : a.WellFormed)
      (covered : lacks e.world.ledger ⟨a.userId, .available, a.market.gives a.side⟩
        (limitRequire a.side a.amount a.price) = false)
      (enough : ¬ mpdCmp a.amount a.market.minAmount < 0) :
      Serves e now a.name (limitRule a.side) (a.start now e.world)
  | market {a : MarketArgs} {tooLong : String → Bool} {params : List Json} {node : Ref}
      {best : Order} (read : readMarketArgs tooLong e.markets params = .ok a)
      (wellFormed : a.WellFormed)
      (covered : lacks e.world.ledger ⟨a.userId, .available, a.market.gives a.side⟩ a.amount =
        false)
      (head : node ∈ a.market.book a.side.opposite) (live : e.world.heap node = some best)
      (enough : ¬ mpdCmp a.amount (marketRequire e.world a.market a.side best).1 < 0) :
      Serves e now a.name (marketRule a.side) (a.start now e.world best)

/-- The engine while a command on the market of that name is under way. -/
def Engine.during (e : Engine) (name : String) (m : Market) (w : World) : Engine :=
  e.install name ⟨0, none, m, w⟩

/-- The moments of the runs from `e₀`, with the taker of a loop under way. -/
inductive Moment (e₀ : Engine) : Engine → Option Order → Prop
  | between {e : Engine} (run : Run e₀ e) : Moment e₀ e none
  | turn {e : Engine} {real : Bool} {now : Time} {name : String} {rule : MatchRule}
      {start st : LoopState} {position : Option Ref} (run : Run e₀ e)
      (serves : Serves e now name rule start)
      (passes : Passes real now rule start position st)
      (exact : st.world.ledger.exact = true) :
      Moment e₀ (e.during name st.market st.world) (some st.taker)
  | filled {e : Engine} {real : Bool} {now : Time} {name : String} {rule : MatchRule}
      {start st : LoopState} {node : Ref} {maker : Order} {w : World} {amount : Mpd}
      (run : Run e₀ e) (serves : Serves e now name rule start)
      (passes : Passes real now rule start (some node) st)
      (picks : rule.Picks st node maker w amount)
      (exact : (tradedWorld real now rule { st with world := w } node maker amount).ledger.exact =
        true) :
      Moment e₀ (e.during name st.market (tradedWorld real now rule { st with world := w } node
          maker amount))
        (some (LoopState.takerAfter { st with world := w } now rule maker amount))

variable {rule : MatchRule} {start st st' : LoopState} {position : Option Ref} {node : Ref}
  {maker : Order} {w : World} {amount : Mpd} {real : Bool} {now : Time} {fuel : ℕ}
  {e e' e₀ : Engine} {name : String} {m : Market}

/-- What a loop returns is a state it passed through, observed once more when the
search for an amount ended it. -/
theorem matchLoop_passes (sane : rule.Sane) (passes : Passes real now rule start position st)
    (run : matchLoop real now rule fuel position st = some st') :
    ∃ position' last, Passes real now rule start position' last ∧
      ∃ w, last.world.Observed w ∧ st' = { last with world := w } := by
  induction fuel generalizing position st with
  | zero => cases run
  | succ fuel ih =>
      cases position with
      | none =>
          obtain rfl := Option.some.inj run
          exact ⟨none, st, passes, st.world, .refl _, rfl⟩
      | some node =>
          rw [matchLoop] at run
          split at run
          · obtain rfl := Option.some.inj run
            exact ⟨some node, st, passes, st.world, .refl _, rfl⟩
          rename_i unfinished
          split at run
          · cases run
          rename_i maker live
          split at run
          · obtain rfl := Option.some.inj run
            exact ⟨some node, st, passes, st.world, .refl _, rfl⟩
          rename_i acceptable
          split at run
          · cases run
          · rename_i w dry
            obtain rfl := Option.some.inj run
            exact ⟨some node, st, passes, w, sane.observes dry, rfl⟩
          · rename_i w amount chosen
            exact ih (passes.fill ⟨unfinished, live, Bool.eq_false_iff.mpr acceptable, _, chosen⟩)
              run

omit [Settings] in
theorem MatchRule.Picks.meets (picks : rule.Picks st node maker w amount) {rest : List Ref}
    (at_ : At rule (node :: rest) st) : Meets rule st node maker := by
  rcases at_.head with ⟨maker', rests, side, _⟩
  obtain rfl := rests.eq picks.live
  exact ⟨picks.unfinished, rests, side, picks.acceptable⟩

/-- What has not rounded at a moment of a loop had not rounded at its start. -/
theorem Passes.exact (sane : rule.Sane) (passes : Passes real now rule start position st)
    (exact : st.world.ledger.exact = true) : start.world.ledger.exact = true := by
  induction passes with
  | start => exact exact
  | fill _ picks ih =>
      rcases picks.chosen with ⟨fuel, chosen⟩
      exact ih ((sane.observes chosen).exact (matchFill_exact_before exact))

/-! ## One fill -/

section Fill

variable {side : Side} {taker : Order} {dealId : ℕ} {conf : MarketConf}

omit [Settings] in
@[simp]
theorem makeFill_order : (makeFill side taker maker amount dealId).order side = taker.id := by
  cases side <;> rfl

omit [Settings] in
@[simp]
theorem makeFill_order_opposite :
    (makeFill side taker maker amount dealId).order side.opposite = maker.id := by
  cases side <;> rfl

omit [Settings] in
/-- Each party is charged at its rate for its role. -/
theorem makeFill_fee (takerSide : taker.side = side) (makerSide : maker.side = side.opposite)
    (exact : (w.observeFill (makeFill side taker maker amount dealId)
      (feeRates side taker maker)).ledger.exact = true) :
    ((makeFill side taker maker amount dealId).fee taker.side).value =
        taker.charge (makeFill side taker maker amount dealId) ∧
      ((makeFill side taker maker amount dealId).fee maker.side).value =
        maker.charge (makeFill side taker maker amount dealId) := by
  rcases World.observeFill_products exact with ⟨deal, askFee, bidFee⟩
  rw [deal] at askFee
  unfold Order.charge Order.rate
  cases side with
  | ask =>
      have makerBid : maker.side = .bid := makerSide
      simp only [takerSide, makerBid, makeFill_takerSide, if_true, reduceCtorEq, if_false]
      exact ⟨askFee, bidFee⟩
  | bid =>
      have makerAsk : maker.side = .ask := makerSide
      simp only [takerSide, makerAsk, makeFill_takerSide, if_true, reduceCtorEq, if_false]
      exact ⟨bidFee, askFee⟩

end Fill

/-- What holds of the accounts while a loop runs. -/
structure Booking (rule : MatchRule) (start st : LoopState) : Prop where
  side : st.taker.side = rule.side
  limit : st.taker.type = .limit → rule = limitRule rule.side ∧ st.taker.price.isFinite
  newest : ∀ {ref o}, st.market.Rests st.world.heap ref o → o.id < st.taker.id
  makers : ∀ {ref o}, st.market.Rests st.world.heap ref o →
    o.Booked st.market.toMarketConf st.world.fills
  taker : st.taker.type = .limit → st.taker.Booked st.market.toMarketConf st.world.fills
  fills : ∃ new, st.world.fills = start.world.fills ++ new ∧ ∀ f ∈ new,
    f.order rule.side = start.taker.id ∧ ∃ ref o, start.market.Rests start.world.heap ref o ∧
      o.side = rule.side.opposite ∧ o.id = f.order rule.side.opposite

/-- What holds of them once both parties have recorded the fill. -/
structure Recorded (st : LoopState) (node : Ref) (maker' taker' : Order) (f : Fill) : Prop where
  maker : maker'.Booked st.market.toMarketConf (st.world.fills ++ [f])
  taker : taker'.type = .limit → taker'.Booked st.market.toMarketConf (st.world.fills ++ [f])
  others : ∀ {ref o}, ref ≠ node → st.market.Rests st.world.heap ref o →
    o.Booked st.market.toMarketConf (st.world.fills ++ [f])

variable {ok : MarketConf → Order → Prop} {need : Order → ℚ} {held : ℕ → String → ℚ}

/-- A limit bid buys at its own price or below. -/
theorem Booking.price_le (booking : Booking rule start st)
    (resting : maker.Resting st.market.toMarketConf)
    (acceptable : rule.stops st.taker maker = false) (limit : st.taker.type = .limit)
    (bid : st.taker.side = .bid) : maker.price.value ≤ st.taker.price.value := by
  rcases booking.limit limit with ⟨rule_, finite⟩
  rw [← booking.side, bid] at rule_
  rw [rule_] at acceptable
  exact limitBidRule_price finite resting.priceFinite acceptable

/-- Both parties record the fill, all others do without it. -/
theorem Booking.records (booking : Booking rule start st) (index : BookInv st.market st.world.heap)
    (meets : Meets rule st node maker) (pay : Payable st rule maker amount)
    (exact : (tradedWorld real now rule st node maker amount).ledger.exact = true) :
    Recorded st node (st.makerAfter now rule maker amount) (st.takerAfter now rule maker amount)
      (st.fill rule maker amount) := by
  have makerBooked := booking.makers meets.rests
  have takerExact := (fillMaker_exact exact).1
  have openedExact := tradedWorld_opened exact
  have observed := openedExact
  rw [openedWorld_ledger] at observed
  have fillOk := (pay.fill_ok openedExact).1
  have deal := (World.observeFill_products observed).1
  rcases makeFill_fee booking.side meets.side observed with ⟨takerFee, makerFee⟩
  have amountEq : (st.fill rule maker amount).amount = amount := makeFill_amount
  constructor
  · have entry : maker.Entry st.market.toMarketConf (st.fill rule maker amount) :=
      { ok := fillOk
        owner := by
          rw [meets.side]
          exact makeFill_user_opposite
        deal := deal
        fee := makerFee
        price := fun _ => le_of_eq (congrArg Mpd.value makeFill_price) }
    have own : (st.fill rule maker amount).order maker.side = maker.id := by
      rw [meets.side]
      exact makeFill_order_opposite
    have recorded := settle_exact exact
    rw [World.store_ledger, World.observe_ledger, Ledger.exact_observe, ← meets.side] at recorded
    have booked := makerBooked.record entry own rfl recorded.1 now
    rw [meets.side] at booked
    exact booked.freeze _
  · intro limit
    have entry : st.taker.Entry st.market.toMarketConf (st.fill rule maker amount) :=
      { ok := fillOk
        owner := by
          rw [booking.side]
          exact makeFill_user
        deal := deal
        fee := takerFee
        price := by
          intro bid
          rw [show (st.fill rule maker amount).price = maker.price from makeFill_price]
          exact booking.price_le pay.resting meets.acceptable limit bid }
    have own : (st.fill rule maker amount).order st.taker.side = st.taker.id := by
      rw [booking.side]
      exact makeFill_order
    have spends : (rule.spends (st.fill rule maker amount)).value =
        (st.fill rule maker amount).amount.value := by
      rw [(booking.limit limit).1, limitRule_spends]
    have recorded := settle_exact takerExact
    rw [← booking.side] at recorded
    have booked := (booking.taker limit).record entry own spends recorded now
    rw [booking.side] at booked
    exact booked
  · intro ref o differ rests
    apply (booking.makers rests).beside
    intro f mem
    obtain rfl := List.mem_singleton.mp mem
    by_cases same : o.side = rule.side
    · rw [same, show (st.fill rule maker amount).order rule.side = st.taker.id from makeFill_order]
      exact (booking.newest rests).ne'
    · rw [Side.eq_opposite_of_ne same,
        show (st.fill rule maker amount).order rule.side.opposite = maker.id from
          makeFill_order_opposite]
      intro ids
      exact differ (index.unique rests meets.rests ids.symm)

/-! ## A whole loop -/

/-- What holds at every turn of a loop that starts in order. -/
structure Turning (rule : MatchRule) (ok : MarketConf → Order → Prop) (need : Order → ℚ)
    (held : ℕ → String → ℚ) (start st : LoopState) : Prop where
  trading : Trading rule ok need held st
  progress : Progress rule start st
  booking : Booking rule start st

/-- Looking for an amount is not recorded. -/
theorem Booking.observed (booking : Booking rule start st) (observed : st.world.Observed w) :
    Booking rule start { st with world := w } := by
  have rested {ref : Ref} {o : Order} (rests : st.market.Rests w.heap ref o) :
      st.market.Rests st.world.heap ref o := observed.heap ▸ rests
  rcases booking with ⟨side, limit, newest, makers, taker, fills⟩
  rw [← observed.fills] at fills taker
  exact ⟨side, limit, fun rests => newest (rested rests),
    fun rests => observed.fills ▸ makers (rested rests), taker, fills⟩

theorem Turning.observed (turning : Turning rule ok need held start st)
    (observed : st.world.Observed w) : Turning rule ok need held start { st with world := w } :=
  ⟨turning.trading.observed observed, turning.progress.trans (.observed rule observed),
    turning.booking.observed observed⟩

/-- A fill keeps the accounts. -/
theorem Booking.fill (booking : Booking rule start st) (progress : Progress rule start st)
    (index : BookInv st.market st.world.heap) (meets : Meets rule st node maker)
    (pay : Payable st rule maker amount)
    (settled : Settled st (matchFill real now rule st node maker amount) node maker
      (st.makerAfter now rule maker amount) (st.fill rule maker amount))
    (exact : (tradedWorld real now rule st node maker amount).ledger.exact = true) :
    Booking rule start (matchFill real now rule st node maker amount) := by
  have filled := matchFill_filled real now rule amount index meets.rests
  have recorded := booking.records index meets pay exact
  have terms := st.sameTerms_takerAfter now rule maker amount
  have keep := st.sameKey_makerAfter now rule maker amount
  constructor
  · exact terms.side.trans booking.side
  · intro limit
    rcases booking.limit (terms.type ▸ limit) with ⟨rule_, finite⟩
    exact ⟨rule_, terms.price.symm ▸ finite⟩
  · intro ref o rests
    change o.id < st.taker.id
    rcases settled.rests rests with ⟨_, before⟩ | ⟨_, rfl, _⟩
    · exact booking.newest before
    · change maker.id < st.taker.id
      exact booking.newest meets.rests
  · intro ref o rests
    rw [filled.conf, filled.fills]
    rcases settled.rests rests with ⟨differ, before⟩ | ⟨_, rfl, _⟩
    · exact recorded.others differ before
    · exact recorded.maker
  · intro limit
    rw [filled.conf, filled.fills]
    exact recorded.taker limit
  · rcases booking.fills with ⟨new, made, parties⟩
    refine ⟨new ++ [st.fill rule maker amount], ?_, ?_⟩
    · rw [filled.fills, made, List.append_assoc]
    · intro f mem
      rcases List.mem_append.mp mem with before | last
      · exact parties f before
      obtain rfl := List.mem_singleton.mp last
      rcases progress.rests meets.rests with ⟨o, rests, same⟩
      constructor
      · exact makeFill_order.trans progress.taker.id
      · refine ⟨node, o, rests, same.side.symm.trans meets.side, ?_⟩
        exact same.id.symm.trans makeFill_order_opposite.symm

/-- At every turn the iterator is in place and the accounts are in order. -/
theorem Passes.turning (fair : rule.Fair ok need) (heldNonneg : ∀ user asset, 0 ≤ held user asset)
    (start_ : Turning rule ok need held start start)
    (passes : Passes real now rule start position st) (exact : st.world.ledger.exact = true) :
    (∃ rest, rest.head? = position ∧ At rule rest st) ∧ Turning rule ok need held start st := by
  induction passes with
  | start => exact ⟨⟨_, rfl, .start start_.trading.index.toBookInv⟩, start_⟩
  | @fill node st maker w amount before picks ih =>
      rcases picks.chosen with ⟨fuel, chosen⟩
      have observed := fair.observes chosen
      rcases ih (observed.exact (matchFill_exact_before exact)) with ⟨⟨rest, head, at_⟩, turning⟩
      obtain ⟨ahead, rfl⟩ : ∃ ahead, rest = node :: ahead := by
        cases rest with
        | nil => cases head
        | cons first ahead =>
            obtain rfl := Option.some.inj head
            exact ⟨ahead, rfl⟩
      have meets := picks.meets at_
      rcases at_.head with ⟨_, _, _, forward⟩
      have next := turning.trading.fill fair heldNonneg meets chosen exact
      have pay := (turning.trading.payable_of_traded fair heldNonneg meets chosen
        (matchFill_exact exact)).1
      have quiet := turning.observed observed
      have index := quiet.trading.index
      have rests : st.market.Rests w.heap node maker := observed.heap.symm ▸ meets.rests
      have settled := matchFill_settled pay quiet.trading.sound index rests exact
      refine ⟨⟨ahead, forward.symm, (at_.fill real now amount meets observed).2⟩, next.1,
        turning.progress.trans next.2, ?_⟩
      exact quiet.booking.fill quiet.progress index.toBookInv
        ⟨meets.unfinished, rests, meets.side, meets.acceptable⟩ pay settled (matchFill_exact exact)

/-! ## The engine -/

/-- Every open order has recorded its fills, and no fill is of an order to come. -/
structure Engine.Booked (e : Engine) : Prop where
  orders : ∀ {name m ref o}, dictFind e.markets name = some m → m.Rests e.world.heap ref o →
    o.Booked m.toMarketConf e.world.fills
  known : ∀ f ∈ e.world.fills, ∀ side, f.order side ≤ e.world.orderIdStart

/-- A loop that a command has started on a market. -/
structure Opened (e : Engine) (name : String) (m : Market) (rule : MatchRule)
    (start : LoopState) : Prop where
  found : dictFind e.markets name = some m
  starts : Starts m e.world start
  named : start.taker.market = m.name
  side : start.taker.side = rule.side
  limit : start.taker.type = .limit → rule = limitRule rule.side ∧ start.taker.price.isFinite
  full : start.taker.left = start.taker.amount
  unfilled : start.taker.dealStock = mpdZero ∧ start.taker.dealMoney = mpdZero ∧
    start.taker.dealFee = mpdZero

/-- A command starts a loop within its invariant. -/
theorem Serves.opened (serves : Serves e now name rule start) (inv : EngineInv e)
    (exact : start.world.ledger.exact = true) : ∃ m ok need, Opened e name m rule start ∧
      rule.Fair ok need ∧ Trading rule ok need (e.heldBeside name) start := by
  cases serves with
  | @limit a tooLong params read wellFormed covered enough =>
      rcases wellFormed.terms read with ⟨found, terms⟩
      have observed := e.world.observeRequire_observed a.side a.amount a.price
      rcases limitRule_fair a.side with ⟨ok, need, fair, takes, _, needs⟩
      refine ⟨a.market, ok, need, ?_, fair, ?_⟩
      · refine ⟨found, orderStart_starts observed (congrArg (· + 1) observed.orderIdStart), rfl,
          (limitRule_side a.side).symm, ?_, rfl, rfl, rfl, rfl⟩
        intro _
        rw [limitRule_side]
        exact ⟨rfl, terms.priceFinite⟩
      · exact limitStart_trading takes needs (inv.market found) inv.sound (inv.backed_beside found)
          terms covered exact
  | @market a tooLong params node best read wellFormed covered head live enough =>
      rcases wellFormed.terms read with ⟨found, terms⟩
      have observed := marketRequire_observed e.world a.market a.side best
      rcases marketRule_fair a.side with ⟨ok, fair, takes⟩
      refine ⟨a.market, ok, _, ?_, fair, ?_⟩
      · exact ⟨found, orderStart_starts observed (congrArg (· + 1) observed.orderIdStart), rfl,
          (marketRule_side a.side).symm, nofun, rfl, rfl, rfl, rfl⟩
      · exact marketStart_trading best takes (inv.market found) inv.sound
          (inv.backed_beside found) terms covered

/-- The accounts are in order when a loop starts. -/
theorem Opened.booking (opened : Opened e name m rule start) (inv : EngineInv e)
    (booked : e.Booked) : Booking rule start start := by
  have starts := opened.starts
  have rested {ref : Ref} {o : Order} (rests : start.market.Rests start.world.heap ref o) :
      m.Rests e.world.heap ref o := starts.heap ▸ starts.market ▸ rests
  refine ⟨opened.side, opened.limit, ?_, ?_, ?_, [], (List.append_nil _).symm, by simp⟩
  · intro ref o rests
    rw [starts.takerId]
    exact Nat.lt_succ_of_le ((inv.market opened.found).below (rested rests)).2
  · intro ref o rests
    rw [starts.market, starts.fills]
    exact booked.orders opened.found (rested rests)
  · intro _
    rcases opened.unfilled with ⟨stock, money, fee⟩
    apply Order.Booked.of_new opened.full stock money fee
    intro f mem
    rw [starts.fills] at mem
    have old := booked.known f mem start.taker.side
    rw [starts.takerId]
    omega

omit [Libmpdec] in
/-- Orders of different markets have different ids. -/
theorem EngineInv.ids_apart (inv : EngineInv e) {other : String} {n : Market} {x y : Ref}
    {o p : Order} (found : dictFind e.markets name = some m)
    (found' : dictFind e.markets other = some n) (differ : other ≠ name)
    (rests : m.Rests e.world.heap x o) (rests' : n.Rests e.world.heap y p) : o.id ≠ p.id := by
  intro same
  obtain rfl := inv.apart found found' rests rests' same
  obtain rfl := rests.eq rests'.1
  have named := ((inv.market found).resting rests).market
  have named' := ((inv.market found').resting rests').market
  rw [inv.named found] at named
  rw [inv.named found'] at named'
  exact differ (named'.symm.trans named)

/-- While a command is under way on one market, its own orders and those of all
other markets are in order. -/
theorem Engine.Booked.during {m' : Market} {w' : World} {new : List Fill} (booked : e.Booked)
    (inv : EngineInv e) (opened : Opened e name m rule start)
    (same : ∀ {other n x o}, other ≠ name → dictFind e.markets other = some n →
      n.Rests e.world.heap x o → w'.heap x = e.world.heap x)
    (fills : w'.fills = e.world.fills ++ new)
    (parties : ∀ f ∈ new, f.order rule.side = start.taker.id ∧
      ∃ ref o, start.market.Rests start.world.heap ref o ∧ o.side = rule.side.opposite ∧
        o.id = f.order rule.side.opposite)
    (makers : ∀ {ref o}, m'.Rests w'.heap ref o → o.Booked m'.toMarketConf w'.fills)
    {other : String} {n : Market} {ref : Ref} {o : Order}
    (found : dictFind (e.during name m' w').markets other = some n)
    (rests : n.Rests w'.heap ref o) : o.Booked n.toMarketConf w'.fills := by
  have starts := opened.starts
  by_cases own : other = name
  · subst own
    have found' : dictFind (e.during other m' w').markets other = some m' := dictFind_replace
    rw [found] at found'
    obtain rfl := Option.some.inj found'
    exact makers rests
  · have found' := (dictFind_replace_ne own).symm.trans found
    have market := inv.market found'
    have before : n.Rests e.world.heap ref o := by
      rcases market.index.rests_of_mem rests.2 with ⟨o', rests', _⟩
      exact ⟨(same own found' rests').symm.trans rests.1, rests.2⟩
    rw [fills]
    apply (booked.orders found' before).beside
    intro f mem ids
    rcases parties f mem with ⟨taker, x, p, origin, side, maker⟩
    by_cases sameSide : o.side = rule.side
    · rw [sameSide, taker, starts.takerId] at ids
      have old := (market.below before).2
      omega
    · rw [Side.eq_opposite_of_ne sameSide, ← maker] at ids
      rw [starts.market, starts.heap] at origin
      exact inv.ids_apart opened.found found' own origin before ids

/-! ## Commands -/

/-- The fills of a loop are of orders that exist by then. -/
theorem Opened.known (opened : Opened e name m rule start) (inv : EngineInv e) (booked : e.Booked)
    (booking : Booking rule start st) :
    ∀ f ∈ st.world.fills, ∀ side, f.order side ≤ e.world.orderIdStart + 1 := by
  have starts := opened.starts
  rcases booking.fills with ⟨new, made, parties⟩
  intro f mem side
  rw [made, starts.fills] at mem
  rcases List.mem_append.mp mem with before | fresh
  · exact (booked.known f before side).trans (Nat.le_succ _)
  · rcases parties f fresh with ⟨taker, ref, o, rests, _, maker⟩
    by_cases same : side = rule.side
    · rw [same, taker, starts.takerId]
    · rw [Side.eq_opposite_of_ne same, ← maker]
      rw [starts.market, starts.heap] at rests
      exact ((inv.market opened.found).below rests).2.trans (Nat.le_succ _)

/-- A command that ran a loop leaves the accounts in order. -/
theorem Engine.Booked.install {outcome : Outcome} (booked : e.Booked) (inv : EngineInv e)
    (opened : Opened e name m rule start) (booking : Booking rule start st)
    (step : MarketStep (e.heldBeside name) m outcome.market e.world outcome.world)
    (fills : outcome.world.fills = st.world.fills)
    (orderId : outcome.world.orderIdStart = e.world.orderIdStart + 1)
    (makers : ∀ {ref o}, outcome.market.Rests outcome.world.heap ref o →
      o.Booked outcome.market.toMarketConf outcome.world.fills) :
    (e.install name outcome).Booked := by
  rcases booking.fills with ⟨new, made, parties⟩
  constructor
  · intro other n ref o found rests
    exact booked.during inv opened
      (fun differ found' rests => inv.heap_beside opened.found step differ found' rests)
      (fills.trans (opened.starts.fills ▸ made)) parties makers found rests
  · intro f mem side
    change f.order side ≤ outcome.world.orderIdStart
    rw [orderId]
    exact opened.known inv booked booking f (fills ▸ mem) side

theorem EngineInv.limit_booked (inv : EngineInv e) (booked : e.Booked) {a : LimitArgs}
    {tooLong : String → Bool} {params : List Json} {outcome : Outcome}
    (read : readLimitArgs tooLong e.markets params = .ok a) (wellFormed : a.WellFormed)
    (put : a.put real now fuel e.world = some outcome) (ret : outcome.ret = 0)
    (exact : outcome.world.ledger.exact = true) : (e.install a.name outcome).Booked := by
  rcases wellFormed.terms read with ⟨found, terms⟩
  rcases marketPutLimitOrder_cases put with
    ⟨code, rfl | rfl, rfl⟩ | ⟨covered, enough, st', executed, rfl⟩
  · cases ret
  · cases ret
  have resultExact := restOrFinish_exact exact
  rcases matchLoop_passes (limitRule_sane a.side) .start executed with
    ⟨position, last, passes, w, observed, rfl⟩
  have lastExact := observed.exact resultExact
  have startExact := passes.exact (limitRule_sane a.side) lastExact
  have serves : Serves e now a.name (limitRule a.side) (a.start now e.world) :=
    .limit read wellFormed covered enough
  rcases serves.opened inv startExact with ⟨m, _, _, opened, _, _⟩
  obtain rfl := Option.some.inj (opened.found.symm.trans found)
  rcases limitRule_fair a.side with ⟨ok, need, fair, takes, stock, needs⟩
  have trading : Trading (limitRule a.side) ok need (e.heldBeside a.name) (a.start now e.world) :=
    limitStart_trading takes needs (inv.market found) inv.sound (inv.backed_beside found) terms
      covered startExact
  have turning := (passes.turning fair (inv.heldBeside_nonneg a.name)
    ⟨trading, .refl _ _, opened.booking inv booked⟩ lastExact).2.observed observed
  rcases limitOrder_served fair stock needs (inv.market found) (inv.heldBeside_nonneg a.name) terms
    trading executed exact with ⟨step, _, rested⟩
  apply booked.install inv opened turning.booking step
  · exact restOrFinish_fills real _
  · rw [restOrFinish_orderIdStart]
    exact turning.progress.orderIdStart.trans opened.starts.orderId
  · intro ref o rests
    rw [restOrFinish_fills, step.conf, ← turning.progress.conf.trans (congrArg Market.toMarketConf
      opened.starts.market)]
    rcases rested rests with rfl | before
    · exact (turning.booking.taker turning.progress.taker.type).freeze _
    · exact turning.booking.makers before

theorem EngineInv.market_booked (inv : EngineInv e) (booked : e.Booked) {a : MarketArgs}
    {tooLong : String → Bool} {params : List Json} {outcome : Outcome}
    (read : readMarketArgs tooLong e.markets params = .ok a) (wellFormed : a.WellFormed)
    (put : a.put real now fuel e.world = some outcome) (ret : outcome.ret = 0)
    (exact : outcome.world.ledger.exact = true) : (e.install a.name outcome).Booked := by
  rcases wellFormed.terms read with ⟨found, terms⟩
  rcases marketPutMarketOrder_cases put with
    ⟨code, rfl | rfl | rfl, rfl⟩ | ⟨covered, node, best, st', head, live, enough, executed, rfl⟩
  · cases ret
  · cases ret
  · cases ret
  have resultExact : st'.world.ledger.exact = true := by simpa [finishMarket] using exact
  rcases matchLoop_passes (marketRule_sane a.side) .start executed with
    ⟨position, last, passes, w, observed, rfl⟩
  have lastExact := observed.exact resultExact
  have startExact := passes.exact (marketRule_sane a.side) lastExact
  have serves : Serves e now a.name (marketRule a.side) (a.start now e.world best) :=
    .market read wellFormed covered head live enough
  rcases serves.opened inv startExact with ⟨m, ok, need, opened, fair, trading⟩
  obtain rfl := Option.some.inj (opened.found.symm.trans found)
  have turning := (passes.turning fair (inv.heldBeside_nonneg a.name)
    ⟨trading, .refl _ _, opened.booking inv booked⟩ lastExact).2.observed observed
  rcases finishMarket_world real { last with world := w } with ⟨one, two, world⟩
  have step := ((turning.trading.marketStep (inv.market found) opened.starts
    turning.progress).emit real one).emit real two
  have same : w.SameOrders (finishMarket real { last with world := w }).world := by
    rw [world]
    exact (World.emit_sameOrders _ real one).trans (World.emit_sameOrders _ real two)
  apply booked.install inv opened turning.booking (world ▸ step)
  · exact same.fills
  · exact same.orderIdStart.trans (turning.progress.orderIdStart.trans opened.starts.orderId)
  · intro ref o rests
    rw [same.heap] at rests
    rw [same.fills]
    exact turning.booking.makers rests

/-- Cancelling an order leaves the accounts of all others. -/
theorem EngineInv.cancel_booked (inv : EngineInv e) (booked : e.Booked) {a : CancelArgs}
    {params : List Json} {ref : Ref} {order : Order}
    (read : readCancelArgs e.markets params = .ok a)
    (got : marketGetOrder a.market e.world a.orderId = some (ref, order))
    (exact : (marketCancelOrder real a.market e.world ref order).world.ledger.exact = true) :
    (e.install a.name (marketCancelOrder real a.market e.world ref order)).Booked := by
  rcases inv.cancel read got exact with ⟨found, step, _⟩
  have index := (inv.market found).index
  have rests := (index.rests_of_get got).1
  have announced := e.world.emit_sameOrders real
    (.orderMessage .finish order a.market.stock a.market.money)
  have finished := orderFinish_finished real (announced.heap.symm ▸ index.toBookInv)
    (announced.heap.symm ▸ rests)
  have counters := announced.toSameCounters.trans finished.toSameCounters
  have fills : (marketCancelOrder real a.market e.world ref order).world.fills = e.world.fills :=
    counters.fills
  constructor
  · intro other n x o found' restsX
    change o.Booked n.toMarketConf (marketCancelOrder real a.market e.world ref order).world.fills
    rw [fills]
    by_cases own : other = a.name
    · subst own
      have installed : dictFind (e.install a.name (marketCancelOrder real a.market e.world ref
          order)).markets a.name = some (marketCancelOrder real a.market e.world ref
            order).market := dictFind_replace
      rw [installed] at found'
      obtain rfl := Option.some.inj found'
      rw [step.conf]
      have member : x ∈ (a.market.book o.side).erase ref := (finished.book o.side) ▸ restsX.2
      rw [index.toBookInv.mem_erase] at member
      apply booked.orders found
      refine ⟨?_, member.2⟩
      rw [← announced.heap, ← finished.heap x member.1]
      exact restsX.1
    · have before := (dictFind_replace_ne own).symm.trans found'
      apply booked.orders before
      apply ((inv.market before).beside step.nextRef_le step.orderId_le _).2 restsX
      exact fun rests' => inv.heap_beside found step own before rests'
  · intro f mem side
    change f ∈ (marketCancelOrder real a.market e.world ref order).world.fills at mem
    rw [fills] at mem
    exact (booked.known f mem side).trans counters.orderIdStart.ge

omit [Libmpdec] [Settings] in
theorem Engine.Booked.of_eq [Settings] (booked : e.Booked) (markets : e'.markets = e.markets)
    (fills : e'.world.fills = e.world.fills) (heap : e'.world.heap = e.world.heap)
    (orderId : e'.world.orderIdStart = e.world.orderIdStart) : e'.Booked := by
  constructor
  · intro name m ref o found rests
    rw [markets] at found
    rw [heap] at rests
    rw [fills]
    exact booked.orders found rests
  · intro f mem side
    rw [fills] at mem
    rw [orderId]
    exact booked.known f mem side

theorem Engine.Booked.update {padding : ℕ} {a : UpdateArgs} (booked : e.Booked)
    (run : updateUserBalance real now padding e a = (0, e')) : e'.Booked := by
  rcases updateUserBalance_cases real now padding e a with
    repeated | refused | ⟨result, ledger, one, two, _, _, updated⟩
  · exact absurd (repeated.symm.trans run) (by simp)
  · exact absurd (refused.symm.trans run) (by simp)
  obtain ⟨_, rfl⟩ := Prod.mk.inj (updated.symm.trans run)
  have same := (World.emit_sameOrders { e.world with ledger := ledger } real one).trans
    (World.emit_sameOrders _ real two)
  exact booked.of_eq rfl same.fills same.heap same.orderIdStart

/-- A step keeps the accounts of all open orders. -/
theorem Step.booked (step : Step e e') (inv : EngineInv e) (booked : e.Booked) : e'.Booked := by
  cases step with
  | @command _ now fuel command reply wellFormed run exact =>
      cases command with
      | balanceUpdate padding params =>
          rcases onCmdBalanceUpdate_cases (Option.some.inj run) with
            ⟨_, rfl⟩ | ⟨user, business, businessId, change, detail, a, e₁, rfl, _, read, updated,
              _, rfl⟩
          · exact booked
          · exact (booked.update updated).of_eq rfl rfl rfl rfl
      | orderPutLimit params =>
          rcases onCmdOrderPutLimit_cases run with ⟨_, rfl⟩ | ⟨a, st', read, put, _, _, rfl⟩
          · exact booked
          · exact (inv.limit_booked booked read (wellFormed a read) put (restOrFinish_ret _ _)
              exact).of_eq rfl rfl rfl rfl
      | orderPutMarket params =>
          rcases onCmdOrderPutMarket_cases run with
            ⟨_, rfl⟩ | ⟨a, best, st', read, put, _, _, rfl⟩
          · exact booked
          · exact (inv.market_booked booked read (wellFormed a read) put rfl exact).of_eq
              rfl rfl rfl rfl
      | orderCancel params =>
          rcases onCmdOrderCancel_cases (Option.some.inj run) with
            ⟨_, rfl⟩ | ⟨a, ref, order, read, got, _, _, rfl⟩
          · exact booked
          · exact (inv.cancel_booked booked read got exact).of_eq rfl rfl rfl rfl
  | @replay _ now fuel padding method params wellFormed run exact =>
      unfold loadOper at run
      split at run
      · rcases loadUpdateBalance_cases (Option.some.inj run) with
          rfl | ⟨user, business, businessId, change, detail, a, rfl, _, read, updated⟩
        · exact booked
        · exact booked.update updated
      split at run
      · rcases loadLimitOrder_cases run with rfl | ⟨a, st', read, put, _, rfl⟩
        · exact booked
        · exact inv.limit_booked booked read (wellFormed.limit read) put (restOrFinish_ret _ _)
            exact
      split at run
      · rcases loadMarketOrder_cases run with rfl | ⟨a, best, st', read, put, _, rfl⟩
        · exact booked
        · exact inv.market_booked booked read (wellFormed.market read) put rfl exact
      split at run
      · rcases loadCancelOrder_cases (Option.some.inj run) with
          rfl | ⟨a, ref, order, read, got, rfl⟩
        · exact booked
        · exact inv.cancel_booked booked read got exact
      · cases run
  | timer now => exact booked.of_eq rfl rfl rfl rfl

/-- So does a run. -/
theorem Run.booked (run : Run e e') (inv : EngineInv e) (booked : e.Booked) :
    EngineInv e' ∧ e'.Booked := by
  induction run with
  | refl => exact ⟨inv, booked⟩
  | tail _ step ih => exact ⟨(step.kept ih.1).inv, step.booked ih.1 ih.2⟩

omit [Libmpdec] in
/-- A started engine has no orders and no fills. -/
theorem engineStart_booked (start : Engine.start = some e) : e.Booked := by
  unfold Engine.start at start
  split at start
  · cases start
  rcases Option.map_eq_some_iff.mp start with ⟨markets, _, rfl⟩
  constructor
  · intro name m ref o found rests
    rcases rests with ⟨live, _⟩
    cases live
  · intro f mem side
    cases mem

/-! ## Every moment -/

/-- The turns of a loop that a command has started. -/
theorem Serves.turning (serves : Serves e now name rule start) (inv : EngineInv e)
    (booked : e.Booked) (passes : Passes real now rule start position st)
    (exact : st.world.ledger.exact = true) :
    ∃ m ok need, Opened e name m rule start ∧ rule.Fair ok need ∧
      (∃ rest, rest.head? = position ∧ At rule rest st) ∧
      Turning rule ok need (e.heldBeside name) start st := by
  have sane : rule.Sane := by
    cases serves with
    | limit => exact limitRule_sane _
    | market => exact marketRule_sane _
  rcases serves.opened inv (passes.exact sane exact) with ⟨m, ok, need, opened, fair, trading⟩
  rcases passes.turning fair (inv.heldBeside_nonneg name)
    ⟨trading, .refl _ _, opened.booking inv booked⟩ exact with ⟨at_, turning⟩
  exact ⟨m, ok, need, opened, fair, at_, turning⟩

/-- The next fill of a loop that a command has started. -/
theorem Serves.filling (serves : Serves e now name rule start) (inv : EngineInv e)
    (booked : e.Booked) (passes : Passes real now rule start (some node) st)
    (picks : rule.Picks st node maker w amount)
    (exact : (tradedWorld real now rule { st with world := w } node maker amount).ledger.exact =
      true) :
    ∃ m ok need, Opened e name m rule start ∧
      Turning rule ok need (e.heldBeside name) start { st with world := w } ∧
      Meets rule { st with world := w } node maker ∧
      Payable { st with world := w } rule maker amount := by
  have sane : rule.Sane := by
    cases serves with
    | limit => exact limitRule_sane _
    | market => exact marketRule_sane _
  rcases picks.chosen with ⟨fuel, chosen⟩
  have observed := sane.observes chosen
  have opened_ := tradedWorld_opened exact
  rw [openedWorld_ledger] at opened_
  simp only [World.observeFill, World.observe_ledger, Ledger.exact_observe] at opened_
  rcases serves.turning inv booked passes (observed.exact opened_.1.1.1) with
    ⟨m, ok, need, opened, fair, ⟨rest, head, at_⟩, turning⟩
  obtain ⟨ahead, rfl⟩ : ∃ ahead, rest = node :: ahead := by
    cases rest with
    | nil => cases head
    | cons first ahead =>
        obtain rfl := Option.some.inj head
        exact ⟨ahead, rfl⟩
  have meets := picks.meets at_
  refine ⟨m, ok, need, opened, turning.observed observed, ?_, ?_⟩
  · exact ⟨meets.unfinished, observed.heap.symm ▸ meets.rests, meets.side, meets.acceptable⟩
  · exact (turning.trading.payable_of_traded fair (inv.heldBeside_nonneg name) meets chosen
      exact).1

/-- The orders alive at a moment have recorded their fills. -/
theorem Moment.booked {taker : Option Order} (moment : Moment e₀ e taker)
    (start : Engine.start = some e₀) :
    (∀ {name m ref o}, dictFind e.markets name = some m → m.Rests e.world.heap ref o →
      o.Booked m.toMarketConf e.world.fills) ∧
    ∀ o, taker = some o → o.type = .limit → ∃ m, dictFind e.markets o.market = some m ∧
      o.Booked m.toMarketConf e.world.fills := by
  have inv₀ := (engineStart_inv start).1
  have booked₀ := engineStart_booked start
  cases moment with
  | between run =>
      refine ⟨(run.booked inv₀ booked₀).2.orders, ?_⟩
      intro o none
      cases none
  | @turn e real now name rule first st position run serves passes exact =>
      rcases run.booked inv₀ booked₀ with ⟨inv, booked⟩
      rcases serves.turning inv booked passes exact with
        ⟨m, ok, need, opened, fair, _, turning⟩
      have step := turning.trading.marketStep (inv.market opened.found) opened.starts
        turning.progress
      rcases turning.booking.fills with ⟨new, made, parties⟩
      constructor
      · intro other n ref o found rests
        exact booked.during inv opened
          (fun differ found' rests => inv.heap_beside opened.found step differ found' rests)
          (opened.starts.fills ▸ made) parties turning.booking.makers found rests
      · intro o same limit
        obtain rfl := Option.some.inj same
        have named : st.taker.market = name :=
          (turning.progress.taker.market.trans opened.named).trans (inv.named opened.found)
        refine ⟨st.market, ?_, turning.booking.taker limit⟩
        rw [named]
        exact dictFind_replace
  | @filled e real now name rule first st node maker w amount run serves passes picks exact =>
      rcases run.booked inv₀ booked₀ with ⟨inv, booked⟩
      rcases serves.filling inv booked passes picks exact with
        ⟨m, ok, need, opened, turning, meets, pay⟩
      have index := turning.trading.index.toBookInv
      have recorded := turning.booking.records index meets pay exact
      have traded := tradedWorld_traded real now rule { st with world := w } node maker amount
      have step := turning.trading.marketStep (inv.market opened.found) opened.starts
        turning.progress
      have elsewhere {x : Ref} (differ : x ≠ node) :
          (tradedWorld real now rule { st with world := w } node maker amount).heap x =
            w.heap x := by
        rw [traded.heap, Function.update_of_ne differ]
      rcases turning.booking.fills with ⟨new, made, parties⟩
      have grown : (tradedWorld real now rule { st with world := w } node maker amount).fills =
          e.world.fills ++ (new ++ [LoopState.fill { st with world := w } rule maker amount]) := by
        rw [traded.fills, made, opened.starts.fills, List.append_assoc]
      constructor
      · intro other n ref o found rests
        apply booked.during inv opened _ grown _ _ found rests
        · intro other' n' x o' differ found' rests'
          have same := inv.heap_beside opened.found step differ found' rests'
          refine (elsewhere ?_).trans same
          rintro rfl
          -- the maker is an order of this market
          obtain rfl : maker = o' := meets.rests.eq (same.trans rests'.1)
          have named := ((inv.market found').resting rests').market
          have own := pay.resting.market
          rw [step.conf, named, inv.named found', inv.named opened.found] at own
          exact differ own
        · intro f mem
          rcases List.mem_append.mp mem with before | last
          · exact parties f before
          obtain rfl := List.mem_singleton.mp last
          rcases turning.progress.rests meets.rests with ⟨p, origin, keep⟩
          refine ⟨makeFill_order.trans turning.progress.taker.id, node, p, origin,
            keep.side.symm.trans meets.side, ?_⟩
          exact keep.id.symm.trans makeFill_order_opposite.symm
        · intro x p restsX
          rw [traded.fills]
          by_cases same : x = node
          · subst same
            have now_ := restsX.1
            rw [traded.heap, Function.update_self] at now_
            obtain rfl := Option.some.inj now_
            exact recorded.maker
          · exact recorded.others same ⟨(elsewhere same).symm.trans restsX.1, restsX.2⟩
      · intro o same limit
        obtain rfl := Option.some.inj same
        have named : (LoopState.takerAfter { st with world := w } now rule maker amount).market =
            name :=
          (turning.progress.taker.market.trans opened.named).trans (inv.named opened.found)
        refine ⟨st.market, ?_, ?_⟩
        · rw [named]
          exact dictFind_replace
        · change Order.Booked _ (tradedWorld real now rule { st with world := w } node maker
            amount).fills _
          rw [traded.fills]
          exact recorded.taker limit

/-- Every limit order, at every moment from its acceptance to its removal, agrees
with its fills: what is left and what was dealt, the money, and the fee of each
fill by its role; and each fill posts to the ledger what it credits. -/
theorem orders_accounted (start : Engine.start = some e₀) :
    (∀ {e taker}, Moment e₀ e taker →
      (∀ {name m ref o}, dictFind e.markets name = some m → m.Rests e.world.heap ref o →
        o.Accounted m.toMarketConf e.world.fills) ∧
      ∀ o, taker = some o → o.type = .limit → ∃ m, dictFind e.markets o.market = some m ∧
        o.Accounted m.toMarketConf e.world.fills) ∧
    ∀ {e real now name rule first st node maker w amount}, Run e₀ e →
      Serves e now name rule first → Passes real now rule first (some node) st →
      rule.Picks st node maker w amount →
      (matchFill real now rule { st with world := w } node maker amount).world.ledger.exact =
        true →
      (matchFill real now rule { st with world := w } node maker amount).world.ledger.accounts =
        st.world.ledger.accounts +
          (LoopState.fill { st with world := w } rule maker amount).posted
            st.market.toMarketConf := by
  constructor
  · intro e taker moment
    rcases moment.booked start with ⟨resting, flying⟩
    constructor
    · intro name m ref o found rests
      exact (resting found rests).accounted
    · intro o same limit
      rcases flying o same limit with ⟨m, found, booked⟩
      exact ⟨m, found, booked.accounted⟩
  · intro e real now name rule first st node maker w amount run serves passes picks exact
    rcases run.booked (engineStart_inv start).1 (engineStart_booked start) with ⟨inv, booked⟩
    rcases serves.filling inv booked passes picks (matchFill_exact exact) with
      ⟨m, ok, need, opened, turning, meets, pay⟩
    have settled := matchFill_settled pay turning.trading.sound turning.trading.index meets.rests
      exact
    have sane : rule.Sane := by
      cases serves with
      | limit => exact limitRule_sane _
      | market => exact marketRule_sane _
    rcases picks.chosen with ⟨fuel, chosen⟩
    rw [settled.posts.accounts, (sane.observes chosen).accounts]

end Life

section Small

attribute [local instance] smallSettings Libmpdec.reference

/-- The market of the small engine. -/
def smallRestedMarket : Market :=
  (dictFind smallEngine.markets "BTCCNY").get (by decide +kernel)

/-- The bid that rests in it. -/
def smallRested : Order :=
  (smallEngine.world.heap 1).get (by decide +kernel)

/-- The bid for three was filled with two as a taker. -/
theorem orders_accounted_small : smallRested.Accounted smallRestedMarket.toMarketConf
    smallEngine.world.fills ∧ smallRested.dealStock.value = 2 := by
  have moments := (orders_accounted smallStart_eq).1 (.between smallEngine_run)
  have found : dictFind smallEngine.markets "BTCCNY" = some smallRestedMarket :=
    (Option.some_get _).symm
  have rests : smallRestedMarket.Rests smallEngine.world.heap 1 smallRested :=
    ⟨(Option.some_get _).symm, by decide +kernel⟩
  exact ⟨moments.1 found rests, by decide +kernel⟩

end Small

end ViabtcServer.MatchEngine
