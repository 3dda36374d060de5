import ViabtcServer.MatchEngine.Untimed
import ViabtcServer.MatchEngine.Reach

/-!
# Replaying the orders of the log

What the log records of an accepted order command, replayed from the same
state, leads to the same state: the two read the same arguments, and the
operations they share do not depend on the clock or on being live.
-/

namespace ViabtcServer.MatchEngine

open Decimal Container

section Replaying

variable [Libmpdec] [Settings]

/-! ## The commands of a market -/

section Commands

variable (real : Bool) (now : Time) (fuel : ℕ) (m : Market) (w : World) (userId : ℕ) (side : Side)
  (amount price takerFee makerFee : Mpd) (source : String) (st : LoopState)

theorem restOrFinish_untimed :
    restOrFinish false st.untimed = (restOrFinish real st).untimed := by
  have left : st.taker.untimed.left = st.taker.left := rfl
  have world : st.untimed.world = st.world.untimed := rfl
  have taker : st.untimed.taker = st.taker.untimed := rfl
  have market : st.untimed.market = st.market := rfl
  by_cases finished : mpdCmp st.taker.left mpdZero = 0
  · simp only [restOrFinish, left, world, taker, market, if_pos finished, Outcome.untimed,
      World.untimed_emit, World.emit_false]
    rfl
  · simp only [restOrFinish, left, world, taker, market, if_neg finished, World.emit_false]
    rw [← World.untimed_emit st.world real (.orderMessage .put st.taker st.market.stock
      st.market.money), orderPut_untimed]
    rfl

omit [Libmpdec] [Settings] in
theorem finishMarket_untimed :
    finishMarket false st.untimed = (finishMarket real st).untimed := by
  unfold finishMarket
  simp only [Outcome.untimed, World.untimed_emit, World.emit_false, replyInfo]
  rfl

omit [Settings] in
theorem limitRule_timeless : (limitRule side).Timeless := by
  cases side
  · exact limitAskRule_timeless
  · exact limitBidRule_timeless

omit [Settings] in
theorem marketRule_timeless : (marketRule side).Timeless := by
  cases side
  · exact marketAskRule_timeless
  · exact marketBidRule_timeless

theorem marketPutLimitOrder_eq : marketPutLimitOrder real now fuel m w userId side amount price
    takerFee makerFee source =
      if lacks w.ledger ⟨userId, .available, m.gives side⟩ (limitRequire side amount price) then
        some (.refuse (-1) m w)
      else if mpdCmp amount m.minAmount < 0 then some (.refuse (-2) m w)
      else (execute real now fuel (limitRule side) (limitStart now m w userId side amount price
        takerFee makerFee source)).map (restOrFinish real) := by
  cases side <;> rfl

omit [Settings] in
theorem limitStart_untimed :
    limitStart 0 m w.untimed userId side amount price takerFee makerFee source =
      (limitStart now m w userId side amount price takerFee makerFee source).untimed := by
  cases side <;> rfl

theorem marketPutLimitOrder_untimed :
    marketPutLimitOrder false 0 fuel m w.untimed userId side amount price takerFee makerFee
        source =
      (marketPutLimitOrder real now fuel m w userId side amount price takerFee makerFee
        source).map Outcome.untimed := by
  rw [marketPutLimitOrder_eq, marketPutLimitOrder_eq, limitStart_untimed now,
    execute_untimed real now _ (limitRule_timeless side)]
  have ledger : w.untimed.ledger = w.ledger := rfl
  by_cases lacking : lacks w.ledger ⟨userId, .available, m.gives side⟩
      (limitRequire side amount price) = true
  · rw [if_pos lacking, if_pos (ledger ▸ lacking)]
    rfl
  rw [if_neg lacking, if_neg (ledger ▸ lacking)]
  by_cases small : mpdCmp amount m.minAmount < 0
  · rw [if_pos small, if_pos small]
    rfl
  rw [if_neg small, if_neg small, Option.map_map, Option.map_map]
  congr 1
  funext st
  exact restOrFinish_untimed real st

theorem marketPutMarketOrder_eq : marketPutMarketOrder real now fuel m w userId side amount
    takerFee source =
      if lacks w.ledger ⟨userId, .available, m.gives side⟩ amount then some (.refuse (-1) m w)
      else
        match skiplistGetIterator (m.book side.opposite) with
        | none => some (.refuse (-3) m w)
        | some node =>
            match w.heap node with
            | none => none
            | some best =>
                if mpdCmp amount (marketRequire w m side best).1 < 0 then
                  some (.refuse (-2) m w)
                else (execute real now fuel (marketRule side) (marketStart now m w best userId side
                  amount takerFee source)).map (finishMarket real) := by
  cases side <;> rfl

omit [Settings] in
theorem marketStart_untimed (best : Order) :
    marketStart 0 m w.untimed best.untimed userId side amount takerFee source =
      (marketStart now m w best userId side amount takerFee source).untimed := by
  cases side <;> rfl

theorem marketPutMarketOrder_untimed :
    marketPutMarketOrder false 0 fuel m w.untimed userId side amount takerFee source =
      (marketPutMarketOrder real now fuel m w userId side amount takerFee source).map
        Outcome.untimed := by
  rw [marketPutMarketOrder_eq, marketPutMarketOrder_eq]
  have ledger : w.untimed.ledger = w.ledger := rfl
  by_cases lacking : lacks w.ledger ⟨userId, .available, m.gives side⟩ amount = true
  · rw [if_pos lacking, if_pos (ledger ▸ lacking)]
    rfl
  rw [if_neg lacking, if_neg (ledger ▸ lacking)]
  cases skiplistGetIterator (m.book side.opposite) with
  | none => rfl
  | some node =>
      simp only [World.untimed_heap]
      cases w.heap node with
      | none => rfl
      | some best =>
          have require : (marketRequire w.untimed m side best.untimed).1 =
              (marketRequire w m side best).1 := by
            cases side <;> rfl
          simp only [Option.map_some, require]
          by_cases small : mpdCmp amount (marketRequire w m side best).1 < 0
          · rw [if_pos small, if_pos small]
            rfl
          rw [if_neg small, if_neg small, marketStart_untimed now,
            execute_untimed real now _ (marketRule_timeless side), Option.map_map, Option.map_map]
          congr 1
          funext st
          exact finishMarket_untimed real st

theorem marketCancelOrder_untimed (ref : Ref) (order : Order) :
    marketCancelOrder false m w.untimed ref order.untimed =
      (marketCancelOrder real m w ref order).untimed := by
  unfold marketCancelOrder
  simp only [World.emit_false]
  rw [← World.untimed_emit w real (.orderMessage .finish order m.stock m.money),
    orderFinish_untimed real]
  rfl

omit [Libmpdec] [Settings] in
theorem marketGetOrder_untimed (orderId : ℕ) : marketGetOrder m w.untimed orderId =
    (marketGetOrder m w orderId).map fun found => (found.1, found.2.untimed) := by
  unfold marketGetOrder
  cases dictFind m.orders orderId with
  | none => rfl
  | some ref =>
      simp only [Option.bind_some, World.untimed_heap, Option.map_map]
      rfl

end Commands

/-! ## More room -/

section Room

variable {real : Bool} {now : Time} {fuel fuel' : ℕ} {w : World} {outcome : Outcome}

omit [Settings] in
theorem limitRule_settled (side : Side) : (limitRule side).Settled := by
  cases side <;> exact fun chosen => chosen

omit [Settings] in
theorem marketRule_settled (side : Side) : (marketRule side).Settled := by
  cases side with
  | ask => exact fun chosen => chosen
  | bid => exact marketBidRule_settled

theorem LimitArgs.put_mono {a : LimitArgs} (more : fuel ≤ fuel')
    (put : a.put real now fuel w = some outcome) : a.put real now fuel' w = some outcome := by
  unfold LimitArgs.put at put ⊢
  rw [marketPutLimitOrder_eq] at put ⊢
  split at put
  · rename_i lacking
    rw [if_pos lacking]
    exact put
  rename_i covered
  rw [if_neg covered]
  split at put
  · rename_i small
    rw [if_pos small]
    exact put
  rename_i enough
  rw [if_neg enough]
  rcases Option.map_eq_some_iff.mp put with ⟨st', executed, rfl⟩
  rw [execute_mono real now (limitRule_settled a.side) more executed, Option.map_some]

theorem MarketArgs.put_mono {a : MarketArgs} (more : fuel ≤ fuel')
    (put : a.put real now fuel w = some outcome) : a.put real now fuel' w = some outcome := by
  unfold MarketArgs.put at put ⊢
  rw [marketPutMarketOrder_eq] at put ⊢
  split at put
  · rename_i lacking
    rw [if_pos lacking]
    exact put
  rename_i covered
  rw [if_neg covered]
  split at put
  · exact put
  split at put
  · cases put
  split at put
  · rename_i small
    rw [if_pos small]
    exact put
  rename_i enough
  rw [if_neg enough]
  rcases Option.map_eq_some_iff.mp put with ⟨st', executed, rfl⟩
  rw [execute_mono real now (marketRule_settled a.side) more executed, Option.map_some]

end Room

/-! ## The log replay without time -/

section Load

variable (now : Time) (fuel padding : ℕ) (e : Engine) (params : List Json)

omit [Libmpdec] [Settings] in
theorem Engine.untimed_untimed : e.untimed.untimed = e.untimed := by
  unfold Engine.untimed World.untimed
  simp only [Option.map_map]
  rfl

theorem loadLimitOrder_untimed : loadLimitOrder 0 fuel e.untimed params =
    (loadLimitOrder now fuel e params).map (Option.map Engine.untimed) := by
  have markets : e.untimed.markets = e.markets := rfl
  have world : e.untimed.world = e.world.untimed := rfl
  unfold loadLimitOrder
  rw [markets]
  cases readLimitArgs loadTooLong e.markets params with
  | error reason => cases reason <;> rfl
  | ok a =>
      simp only [world]
      rw [marketPutLimitOrder_untimed false now, Option.map_map, Option.map_map]
      congr 1
      funext outcome
      have ret : outcome.untimed.ret = outcome.ret := rfl
      simp only [Function.comp_apply, ret]
      split <;> rfl

theorem loadMarketOrder_untimed : loadMarketOrder 0 fuel e.untimed params =
    (loadMarketOrder now fuel e params).map (Option.map Engine.untimed) := by
  have markets : e.untimed.markets = e.markets := rfl
  have world : e.untimed.world = e.world.untimed := rfl
  unfold loadMarketOrder
  rw [markets]
  cases readMarketArgs loadTooLong e.markets params with
  | error reason => cases reason <;> rfl
  | ok a =>
      simp only [world]
      rw [marketPutMarketOrder_untimed false now, Option.map_map, Option.map_map]
      congr 1
      funext outcome
      have ret : outcome.untimed.ret = outcome.ret := rfl
      simp only [Function.comp_apply, ret]
      split <;> rfl

theorem loadCancelOrder_untimed : loadCancelOrder e.untimed params =
    (loadCancelOrder e params).map Engine.untimed := by
  have markets : e.untimed.markets = e.markets := rfl
  have world : e.untimed.world = e.world.untimed := rfl
  unfold loadCancelOrder
  rw [markets]
  cases readCancelArgs e.markets params with
  | error reason => cases reason <;> rfl
  | ok a =>
      simp only [world, marketGetOrder_untimed]
      cases marketGetOrder a.market e.world a.orderId with
      | none => rfl
      | some found =>
          rcases found with ⟨ref, order⟩
          simp only [Option.map_some, marketCancelOrder_untimed false]
          rfl

/-- The methods of order commands. -/
def OrderMethod (method : String) : Prop :=
  method = "limit_order" ∨ method = "market_order" ∨ method = "cancel_order"

/-- Replaying an order command does not depend on the clock. -/
theorem loadOper_untimed {method : String} (order : OrderMethod method) :
    loadOper 0 fuel padding e.untimed method params =
      (loadOper now fuel padding e method params).map (Option.map Engine.untimed) := by
  rcases order with rfl | rfl | rfl
  · exact loadLimitOrder_untimed now fuel e params
  · exact loadMarketOrder_untimed now fuel e params
  · change some (loadCancelOrder e.untimed params) = _
    rw [loadCancelOrder_untimed]
    rfl

/-- From states that agree but for time, it succeeds with results that agree. -/
theorem loadOper_congr {method : String} (order : OrderMethod method) {e₁ e₂ e' : Engine}
    (now' : Time) (padding' : ℕ) (same : e₁.untimed = e₂.untimed)
    (run : loadOper now fuel padding e₁ method params = some (some e')) :
    ∃ e'', loadOper now' fuel padding' e₂ method params = some (some e'') ∧
      e''.untimed = e'.untimed := by
  have one := loadOper_untimed now fuel padding e₁ params order
  have two := loadOper_untimed now' fuel padding' e₂ params order
  have free : loadOper 0 fuel padding e₁.untimed method params =
      loadOper 0 fuel padding' e₁.untimed method params := by
    rcases order with rfl | rfl | rfl <;> rfl
  rw [run, free, same, two] at one
  rcases Option.map_eq_some_iff.mp one with ⟨result, loaded, mapped⟩
  rcases Option.map_eq_some_iff.mp mapped with ⟨e'', rfl, agree⟩
  exact ⟨e'', loaded, agree⟩

end Load

/-! ## One accepted command -/

section Accepted

variable {now : Time} {fuel fuel' : ℕ} {e e' : Engine} {info : Order} {params : List Json}

omit [Libmpdec] [Settings] in
theorem laxer (source : String) (short : liveTooLong source = false) :
    loadTooLong source = false := by
  unfold liveTooLong at short
  unfold loadTooLong
  rw [decide_eq_false_iff_not] at short ⊢
  omega

theorem limit_replayed (run : onCmdOrderPutLimit now fuel e params = some (.order info, e')) :
    ∃ e₁, e' = appendOperlog now e₁ "limit_order" params ∧ e₁.operlog = e.operlog ∧
      e₁.operlogIdStart = e.operlogIdStart ∧
      ∀ fuel', fuel ≤ fuel' → loadLimitOrder 0 fuel' e.untimed params =
        some (some e₁.untimed) := by
  rcases onCmdOrderPutLimit_cases run with
    ⟨⟨_, _, refused⟩, _⟩ | ⟨a, st', read, put, _, _, rfl⟩
  · cases refused
  refine ⟨_, rfl, rfl, rfl, ?_⟩
  intro fuel' more
  have read' := readLimitArgs_mono laxer read
  have put' := marketPutLimitOrder_untimed true now fuel' a.market e.world a.userId a.side a.amount
    a.price a.takerFee a.makerFee a.source
  have more' := a.put_mono more put
  unfold LimitArgs.put at more'
  rw [more', Option.map_some] at put'
  have markets : e.untimed.markets = e.markets := rfl
  have world : e.untimed.world = e.world.untimed := rfl
  unfold loadLimitOrder
  rw [markets, read']
  simp only [world, put', Option.map_some]
  have ret : (restOrFinish true st').untimed.ret = 0 := restOrFinish_ret true st'
  rw [if_neg (by rw [ret]; decide)]
  rfl

theorem market_replayed (run : onCmdOrderPutMarket now fuel e params = some (.order info, e')) :
    ∃ e₁, e' = appendOperlog now e₁ "market_order" params ∧ e₁.operlog = e.operlog ∧
      e₁.operlogIdStart = e.operlogIdStart ∧
      ∀ fuel', fuel ≤ fuel' → loadMarketOrder 0 fuel' e.untimed params =
        some (some e₁.untimed) := by
  rcases onCmdOrderPutMarket_cases run with
    ⟨⟨_, _, refused⟩, _⟩ | ⟨a, best, st', read, put, _, _, rfl⟩
  · cases refused
  refine ⟨_, rfl, rfl, rfl, ?_⟩
  intro fuel' more
  have read' := readMarketArgs_mono laxer read
  have put' := marketPutMarketOrder_untimed true now fuel' a.market e.world a.userId a.side
    a.amount a.takerFee a.source
  have more' := a.put_mono more put
  unfold MarketArgs.put at more'
  rw [more', Option.map_some] at put'
  have markets : e.untimed.markets = e.markets := rfl
  have world : e.untimed.world = e.world.untimed := rfl
  unfold loadMarketOrder
  rw [markets, read']
  simp only [world, put', Option.map_some]
  have ret : (finishMarket true st').untimed.ret = 0 := rfl
  rw [if_neg (by rw [ret]; decide)]
  rfl

theorem cancel_replayed (run : onCmdOrderCancel now e params = (.order info, e')) :
    ∃ e₁, e' = appendOperlog now e₁ "cancel_order" params ∧ e₁.operlog = e.operlog ∧
      e₁.operlogIdStart = e.operlogIdStart ∧
      loadCancelOrder e.untimed params = some e₁.untimed := by
  rcases onCmdOrderCancel_cases run with
    ⟨⟨_, _, refused⟩, _⟩ | ⟨a, ref, order, read, found, _, _, rfl⟩
  · cases refused
  refine ⟨_, rfl, rfl, rfl, ?_⟩
  have markets : e.untimed.markets = e.markets := rfl
  have world : e.untimed.world = e.world.untimed := rfl
  unfold loadCancelOrder
  rw [markets, read]
  simp only [world, marketGetOrder_untimed, found, Option.map_some]
  rw [marketCancelOrder_untimed true]
  rfl

/-- The order commands. -/
def Command.IsOrder : Command → Prop
  | .balanceUpdate _ _ => False
  | _ => True

/-- An entry appended after a result that replays. -/
theorem appended_replayed {method : String} {e₁ : Engine} (isOrder : OrderMethod method)
    (log : e₁.operlog = e.operlog) (start : e₁.operlogIdStart = e.operlogIdStart)
    (loaded : ∀ fuel', fuel ≤ fuel' →
      loadOper 0 fuel' 0 e.untimed method params = some (some e₁.untimed)) :
    ∃ entry, (appendOperlog now e₁ method params).operlog = e.operlog ++ [entry] ∧
      entry.id = e.operlogIdStart + 1 ∧
      (appendOperlog now e₁ method params).operlogIdStart = entry.id ∧
      OrderMethod entry.method ∧
      ∀ fuel', fuel ≤ fuel' → ∀ (now' : Time) (padding : ℕ), ∃ e'',
        loadOper now' fuel' padding e entry.method entry.params = some (some e'') ∧
          e''.untimed = (appendOperlog now e₁ method params).untimed := by
  exists ⟨e₁.operlogIdStart + 1, now, method, params⟩
  constructor
  · exact congrArg (· ++ _) log
  constructor
  · exact congrArg (· + 1) start
  constructor
  · rfl
  constructor
  · exact isOrder
  intro fuel' more now' padding
  have replay := loadOper_congr 0 fuel' 0 params isOrder now' padding
    (Engine.untimed_untimed e) (loaded fuel' more)
  rcases replay with ⟨e'', run, agree⟩
  exact ⟨e'', run, agree.trans (Engine.untimed_untimed e₁)⟩

/-- What an accepted order command appends to the log replays to the state the
command led to. -/
theorem accepted_replayed {command : Command} (order : command.IsOrder)
    (run : e.handle now fuel command = some (.order info, e')) :
    ∃ entry, e'.operlog = e.operlog ++ [entry] ∧ entry.id = e.operlogIdStart + 1 ∧
      e'.operlogIdStart = entry.id ∧ OrderMethod entry.method ∧
      ∀ fuel', fuel ≤ fuel' → ∀ (now' : Time) (padding : ℕ), ∃ e'',
        loadOper now' fuel' padding e entry.method entry.params = some (some e'') ∧
          e''.untimed = e'.untimed := by
  cases command with
  | balanceUpdate padding params => exact order.elim
  | orderPutLimit params =>
      rcases limit_replayed run with ⟨e₁, rfl, log, start, loaded⟩
      exact appended_replayed (Or.inl rfl) log start loaded
  | orderPutMarket params =>
      rcases market_replayed run with ⟨e₁, rfl, log, start, loaded⟩
      exact appended_replayed (Or.inr (Or.inl rfl)) log start loaded
  | orderCancel params =>
      rcases cancel_replayed (Option.some.inj run) with ⟨e₁, rfl, log, start, loaded⟩
      exact appended_replayed (Or.inr (Or.inr rfl)) log start fun _ _ => congrArg some loaded

end Accepted

/-! ## Runs of order commands -/

section Runs

variable {e e' : Engine}

/-- A live order command, accepted or refused. -/
def OrderStep (e e' : Engine) : Prop :=
  ∃ now fuel command reply, Command.IsOrder command ∧
    e.handle now fuel command = some (reply, e')

/-- A refused order command changes nothing, any other is answered with its
order. -/
theorem order_answer {now : Time} {fuel : ℕ} {command : Command} {reply : Reply}
    (order : command.IsOrder) (run : e.handle now fuel command = some (reply, e')) :
    e' = e ∨ ∃ info, reply = .order info := by
  cases command with
  | balanceUpdate padding params => exact order.elim
  | orderPutLimit params =>
      rcases onCmdOrderPutLimit_cases run with ⟨_, same⟩ | ⟨_, _, _, _, _, answer, _⟩
      · exact Or.inl same
      · exact Or.inr ⟨_, answer⟩
  | orderPutMarket params =>
      rcases onCmdOrderPutMarket_cases run with ⟨_, same⟩ | ⟨_, _, _, _, _, _, answer, _⟩
      · exact Or.inl same
      · exact Or.inr ⟨_, answer⟩
  | orderCancel params =>
      rcases onCmdOrderCancel_cases (Option.some.inj run) with
        ⟨_, same⟩ | ⟨_, _, _, _, _, _, answer, _⟩
      · exact Or.inl same
      · exact Or.inr ⟨_, answer⟩

/-- A log that leads from `e` to a state like `e'` with enough room for turns. -/
structure Replays (e e' : Engine) (log : List OperLog) (bound : ℕ) : Prop where
  operlog : e'.operlog = e.operlog ++ log
  sorted : log.Pairwise fun a b => a.id < b.id
  start_le : e.operlogIdStart ≤ e'.operlogIdStart
  ids : ∀ row ∈ log, e.operlogIdStart < row.id ∧ row.id ≤ e'.operlogIdStart
  load : ∀ fuel, bound ≤ fuel → ∀ clock padding, ∃ e'',
    log.foldlM (loadRow clock fuel padding) (e.operlogIdStart, e) =
        pure (e'.operlogIdStart, e'') ∧ e''.untimed = e'.untimed

theorem Replays.refl (e : Engine) : Replays e e [] 0 where
  operlog := (List.append_nil _).symm
  sorted := .nil
  start_le := le_rfl
  ids := by simp
  load _ _ _ _ := ⟨e, rfl, rfl⟩

omit [Libmpdec] [Settings] in
/-- A log that is numbered past `start` up to `last` goes on with the next number. -/
theorem numbered_append {log : List OperLog} {entry : OperLog} {start last : ℕ}
    (sorted : log.Pairwise fun a b => a.id < b.id) (le : start ≤ last)
    (ids : ∀ row ∈ log, start < row.id ∧ row.id ≤ last) (next : entry.id = last + 1) :
    ((log ++ [entry]).Pairwise fun a b => a.id < b.id) ∧ start ≤ entry.id ∧
      ∀ row ∈ log ++ [entry], start < row.id ∧ row.id ≤ entry.id := by
  constructor
  · rw [List.pairwise_append]
    constructor
    · exact sorted
    constructor
    · exact List.pairwise_singleton _ _
    intro row member last' single
    rw [List.mem_singleton] at single
    subst single
    have below := (ids row member).2
    omega
  constructor
  · omega
  · intro row member
    rcases List.mem_append.mp member with member | member
    · have own := ids row member
      omega
    · rw [List.mem_singleton] at member
      subst member
      omega

/-- One more row is replayed after a log. -/
theorem foldlM_loadRow_append {log : List OperLog} {entry : OperLog} {fuel start last : ℕ}
    {clock : OperLog → Time} {padding : OperLog → ℕ} {e e₁ e' : Engine}
    (folded : log.foldlM (loadRow clock fuel padding) (start, e) = pure (last, e₁))
    (next : entry.id = last + 1)
    (loaded : loadOper (clock entry) fuel (padding entry) e₁ entry.method entry.params =
      some (some e')) :
    (log ++ [entry]).foldlM (loadRow clock fuel padding) (start, e) = pure (entry.id, e') := by
  rw [List.foldlM_append, folded, pure_bind, List.foldlM_cons]
  have row : loadRow clock fuel padding (last, e₁) entry = pure (entry.id, e') := by
    unfold loadRow
    rw [if_neg (by rw [next]; simp), loaded]
    rfl
  rw [row]
  rfl

/-- An accepted command extends the log by the row that replays it. -/
theorem Replays.accepted {e₁ e₂ : Engine} {log : List OperLog} {bound : ℕ}
    (replays : Replays e e₁ log bound) {now : Time} {fuel : ℕ} {command : Command} {info : Order}
    (order : command.IsOrder) (run : e₁.handle now fuel command = some (.order info, e₂)) :
    ∃ log' bound', Replays e e₂ log' bound' := by
  rcases accepted_replayed order run with ⟨entry, appended, id, start, method, load⟩
  rcases numbered_append replays.sorted replays.start_le replays.ids id with
    ⟨sorted, start_le, ids⟩
  exists log ++ [entry], max bound fuel
  constructor
  · rw [appended, replays.operlog, List.append_assoc]
  · exact sorted
  · rw [start]
    exact start_le
  · rw [start]
    exact ids
  · intro room enough clock padding
    rcases replays.load room ((le_max_left _ _).trans enough) clock padding with
      ⟨e₁', folded, agree⟩
    rcases load room ((le_max_right _ _).trans enough) now 0 with ⟨e₂', loaded, agree'⟩
    rcases loadOper_congr now room 0 entry.params method (clock entry) (padding entry) agree.symm
      loaded with ⟨e'', loaded', agree''⟩
    exists e''
    constructor
    · rw [start]
      exact foldlM_loadRow_append folded id loaded'
    · exact agree''.trans agree'

theorem run_replays (run : Relation.ReflTransGen OrderStep e e') :
    ∃ log bound, Replays e e' log bound := by
  induction run with
  | refl => exact ⟨[], 0, .refl e⟩
  | tail _ step ih =>
      rcases ih with ⟨log, bound, replays⟩
      rcases step with ⟨now, fuel, command, reply, order, run⟩
      rcases order_answer order run with rfl | ⟨info, rfl⟩
      · exact ⟨log, bound, replays⟩
      · exact replays.accepted order run

/-- A table with the rows past `start` is replayed row by row. -/
theorem loadOperlog_eq_foldlM {log : List OperLog} {start fuel : ℕ}
    (sorted : log.Pairwise fun a b => a.id < b.id) (past : ∀ row ∈ log, start < row.id)
    (clock : OperLog → Time) (padding : OperLog → ℕ) (e : Engine) :
    loadOperlog clock fuel padding log start e =
      log.foldlM (loadRow clock fuel padding) (start, e) := by
  have all : rowsAfter OperLog.id log start = log := by
    unfold rowsAfter
    rw [List.filter_eq_self]
    intro row member
    simpa using past row member
  unfold loadOperlog
  rw [readTable_eq sorted (by decide), all]

/-- Read as a table of the log, the rows replay the whole run. -/
theorem Replays.loadOperlog_eq {log : List OperLog} {bound fuel : ℕ}
    (replays : Replays e e' log bound) (enough : bound ≤ fuel) (clock : OperLog → Time)
    (padding : OperLog → ℕ) : ∃ e'',
      (loadOperlog clock fuel padding log e.operlogIdStart e).run =
        some (some (e'.operlogIdStart, e'')) ∧ e''.untimed = e'.untimed := by
  rcases replays.load fuel enough clock padding with ⟨e'', folded, agree⟩
  rw [loadOperlog_eq_foldlM replays.sorted fun row member => (replays.ids row member).1, folded]
  exact ⟨e'', rfl, agree⟩

/-- Replaying equals live execution: the log entry of every accepted order
command, replayed from the same state, leads to the same state but for times;
and so does the log of a whole run of order commands, read from the table that
holds it. -/
theorem orders_replay :
    (∀ {e e' : Engine} {now : Time} {fuel : ℕ} {command : Command} {info : Order},
      command.IsOrder → e.handle now fuel command = some (.order info, e') →
      ∃ entry, e'.operlog = e.operlog ++ [entry] ∧
        ∀ fuel', fuel ≤ fuel' → ∀ (now' : Time) (padding : ℕ), ∃ e'',
          loadOper now' fuel' padding e entry.method entry.params = some (some e'') ∧
            e''.untimed = e'.untimed) ∧
    ∀ {e e' : Engine}, Relation.ReflTransGen OrderStep e e' →
      ∃ log bound, e'.operlog = e.operlog ++ log ∧
        ∀ fuel, bound ≤ fuel → ∀ clock padding, ∃ e'',
          (loadOperlog clock fuel padding log e.operlogIdStart e).run =
            some (some (e'.operlogIdStart, e'')) ∧ e''.untimed = e'.untimed := by
  constructor
  · intro e e' now fuel command info order run
    rcases accepted_replayed order run with ⟨entry, appended, _, _, _, load⟩
    exact ⟨entry, appended, load⟩
  · intro e e' run
    rcases run_replays run with ⟨log, bound, replays⟩
    exact ⟨log, bound, replays.operlog, fun fuel enough clock padding =>
      replays.loadOperlog_eq enough clock padding⟩

end Runs

end Replaying

section Small

attribute [local instance] smallSettings Libmpdec.reference

/-- What the log records of the bid of the small engine replays. -/
theorem orders_replay_small : ∃ log bound, smallEngine.operlog = smallBefore.operlog ++ log ∧
    ∀ fuel, bound ≤ fuel → ∀ clock padding, ∃ e'',
      (loadOperlog clock fuel padding log smallBefore.operlogIdStart smallBefore).run =
        some (some (smallEngine.operlogIdStart, e'')) ∧ e''.untimed = smallEngine.untimed :=
  orders_replay.2 (.single ⟨0, 10, smallTaker, _, trivial, smallAnswer_eq⟩)

end Small

end ViabtcServer.MatchEngine
