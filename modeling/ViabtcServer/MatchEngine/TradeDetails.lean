import ViabtcServer.MatchEngine.Reach

/-!
# The details of trades

Every fill appends rows to the balance history of both parties, with a detail that
names the market, the order, the price and the amount. Which details an order
brings about can be told from the order and the book it comes to: it trades with
one resting order after the other, while it has something left and accepts the
price.
-/

namespace ViabtcServer.MatchEngine

open Decimal Container

/-! ## Rows -/

/-- The detail of a row of the balance history. -/
def Output.detail : Output → Option Detail
  | .balanceHistory _ _ _ _ _ _ detail => some detail
  | _ => none

/-- The details of the rows appended since `w`. -/
def World.detailsSince (w w' : World) : List Detail :=
  (w'.out.drop w.out.length).filterMap Output.detail

/-- The rows written on the way from `w` to `w'` have these details. -/
def World.Writes (w : World) (details : List Detail) (w' : World) : Prop :=
  ∃ new, w'.out = w.out ++ new ∧ new.filterMap Output.detail = details

section Rows

variable {w w' w'' : World} {details details' : List Detail}

theorem World.Writes.of_out (out : w'.out = w.out) : w.Writes [] w' :=
  ⟨[], out.trans (List.append_nil _).symm, rfl⟩

theorem World.Writes.refl (w : World) : w.Writes [] w :=
  .of_out rfl

theorem World.Writes.trans (one : w.Writes details w') (two : w'.Writes details' w'') :
    w.Writes (details ++ details') w'' := by
  rcases one with ⟨new, out, rfl⟩
  rcases two with ⟨new', out', rfl⟩
  refine ⟨new ++ new', ?_, List.filterMap_append⟩
  rw [out', out, List.append_assoc]

/-- Nothing is written on the way to `w'`. -/
theorem World.Writes.after (two : w'.Writes details w'') (out : w'.out = w.out) :
    w.Writes details w'' :=
  (World.Writes.of_out out).trans two

/-- Nothing is written after `w'`. -/
theorem World.Writes.before (one : w.Writes details w') (two : w'.Writes [] w'') :
    w.Writes details w'' := by
  have both := one.trans two
  rwa [List.append_nil] at both

theorem World.Writes.detailsSince (writes : w.Writes details w') :
    w.detailsSince w' = details := by
  rcases writes with ⟨new, out, rfl⟩
  unfold World.detailsSince
  rw [out, List.drop_left]

theorem World.emit_writes (w : World) (output : Output) :
    w.Writes output.detail.toList (w.emit true output) := by
  refine ⟨[output], rfl, ?_⟩
  cases output <;> rfl

/-- Output other than balance history. -/
theorem World.emit_plain (w : World) (real : Bool) {output : Output}
    (plain : output.detail = none) : w.Writes [] (w.emit real output) := by
  cases real with
  | false => exact .refl w
  | true =>
      have writes := w.emit_writes output
      rwa [plain] at writes

end Rows

/-! ## One fill -/

section Fills

variable [Libmpdec]

/-- The details that a fill writes for one party. -/
def Fill.details (f : Fill) (side : Side) (order : Order) (feeRate : Mpd) : List Detail :=
  [.trade order.market order.id f.price f.amount, .trade order.market order.id f.price f.amount] ++
    if mpdCmp (f.fee side) mpdZero > 0 then
      [.fee order.market order.id f.price f.amount feeRate]
    else []

/-- The details that a fill between a taker and a maker writes. -/
def tradeDetails (side : Side) (taker maker : Order) (amount : Mpd) : List Detail :=
  (makeFill side taker maker amount 0).details side taker taker.takerFee ++
    (makeFill side taker maker amount 0).details side.opposite maker maker.makerFee

/-- The number of the deal is not in them. -/
theorem details_makeFill (side party : Side) (taker maker order : Order) (amount rate : Mpd)
    (dealId : ℕ) : (makeFill side taker maker amount dealId).details party order rate =
      (makeFill side taker maker amount 0).details party order rate := by
  cases side <;> cases party <;> rfl

/-- Of the taker they have the terms. -/
theorem tradeDetails_sameTerms {taker taker' : Order} (same : taker.SameTerms taker')
    (side : Side) (maker : Order) (amount : Mpd) :
    tradeDetails side taker' maker amount = tradeDetails side taker maker amount := by
  cases side with
  | ask | bid =>
      simp only [tradeDetails, Fill.details, makeFill, Fill.fee, feeRates, Side.opposite,
        same.id, same.market, same.takerFee]
      rfl

variable [Settings]

theorem settle_writes (conf : MarketConf) (w : World) (order : Order) (side : Side)
    (source : BalanceType) (f : Fill) (feeRate : Mpd) :
    w.Writes (f.details side order feeRate)
      (settle true conf w order side source f feeRate) := by
  have paid (w : World) : w.Writes [.trade order.market order.id f.price f.amount]
      (settlePays true conf w order side source f) :=
    (World.emit_writes _ _).after rfl
  have received (w : World) : w.Writes [.trade order.market order.id f.price f.amount]
      (settleReceives true conf w order side f) :=
    (World.emit_writes _ _).after rfl
  have charged (w : World) : w.Writes (if mpdCmp (f.fee side) mpdZero > 0 then
      [.fee order.market order.id f.price f.amount feeRate] else [])
      (settleFee true conf w order side f feeRate) := by
    unfold settleFee
    split
    · exact (World.emit_writes _ _).after rfl
    · exact .refl w
  exact ((paid w).trans (received _)).trans (charged _)

theorem orderFinish_writes (real : Bool) (m : Market) (w : World) (ref : Ref) :
    w.Writes [] (orderFinish real m w ref).2.2 := by
  have removed (m : Market) (w : World) (order : Order) :
      w.Writes [] (orderRemove real m w order ref).2 :=
    World.emit_plain w _ rfl
  unfold orderFinish
  split
  · exact .refl w
  · simp only
    split
    · split
      · exact .of_out rfl
      · exact (removed _ _ _).after rfl
    · exact removed _ _ _

theorem closeMaker_writes (real : Bool) (m : Market) (w : World) (node : Ref) (maker : Order) :
    w.Writes [] (closeMaker real m w node maker).2 := by
  unfold closeMaker
  split
  · exact (World.emit_plain w real rfl).before (orderFinish_writes ..)
  · exact World.emit_plain w real rfl

omit [Settings] in
theorem openedWorld_writes (real : Bool) (now : Time) (rule : MatchRule) (st : LoopState)
    (maker : Order) (amount : Mpd) :
    st.world.Writes [] (openedWorld real now rule st maker amount) := by
  unfold openedWorld World.openDeal
  simp only
  exact ((World.emit_plain _ real rfl).before (World.emit_plain _ real rfl)).after rfl

theorem matchFill_writes (now : Time) (rule : MatchRule) (st : LoopState) (node : Ref)
    (maker : Order) (amount : Mpd) :
    st.world.Writes (tradeDetails rule.side st.taker maker amount)
      (matchFill true now rule st node maker amount).world := by
  have taken (w : World) : w.Writes ((st.fill rule maker amount).details rule.side st.taker
      st.taker.takerFee) (fillTaker true now rule st.market.toMarketConf w st.taker
        (st.fill rule maker amount)).2 :=
    (settle_writes ..).after rfl
  have made (w : World) : w.Writes ((st.fill rule maker amount).details rule.side.opposite maker
      maker.makerFee) (fillMaker true now rule.side.opposite st.market.toMarketConf w node maker
        (st.fill rule maker amount)) :=
    (settle_writes ..).after rfl
  have opened := openedWorld_writes true now rule st maker amount
  have writes := (opened.trans ((taken _).trans (made _))).before (closeMaker_writes true
    st.market _ node (st.makerAfter now rule maker amount))
  rw [List.nil_append] at writes
  unfold LoopState.fill at writes
  rw [details_makeFill, details_makeFill] at writes
  exact writes

end Fills

/-! ## What a taker trades -/

section Trades

variable [Libmpdec]

/-- A taker with `left` left trades `amount` with a maker, at a precision of the stock. -/
structure MatchRule.Takes (rule : MatchRule) (prec : ℤ) (taker : Order) (left : Mpd)
    (maker : Order) (amount : Mpd) : Prop where
  unfinished : mpdCmp left mpdZero ≠ 0
  acceptable : rule.stops taker maker = false
  found : ∃ fuel st w, st.market.stockPrec = prec ∧ st.taker.left = left ∧
    rule.volume fuel st maker = some (w, some amount)

/-- What is left of the taker after a trade. -/
def MatchRule.remains (rule : MatchRule) (taker : Order) (left : Mpd) (maker : Order)
    (amount : Mpd) : Mpd :=
  mpdSub left (rule.spends (makeFill rule.side taker maker amount 0))

/-- The trades of a taker that comes to a queue of makers: it trades with one after the
other. -/
inductive MatchRule.Trades (rule : MatchRule) (prec : ℤ) (taker : Order) :
    Mpd → List Order → Order → Mpd → Prop
  | here {left amount : Mpd} {maker : Order} {rest : List Order}
      (takes : rule.Takes prec taker left maker amount) :
      Trades rule prec taker left (maker :: rest) maker amount
  | later {left amount traded : Mpd} {maker other : Order} {rest : List Order}
      (takes : rule.Takes prec taker left maker amount)
      (next : Trades rule prec taker (rule.remains taker left maker amount) rest other traded) :
      Trades rule prec taker left (maker :: rest) other traded

/-- A detail of one of the trades of a taker. -/
def MatchRule.TradeDetail (rule : MatchRule) (prec : ℤ) (taker : Order) (left : Mpd)
    (makers : List Order) (detail : Detail) : Prop :=
  ∃ maker amount, rule.Trades prec taker left makers maker amount ∧
    detail ∈ tradeDetails rule.side taker maker amount

section Queue

variable {rule : MatchRule} {prec : ℤ} {taker maker : Order} {left amount : Mpd}
  {rest : List Order} {detail : Detail}

theorem not_tradeDetail_nil : ¬rule.TradeDetail prec taker left [] detail := by
  rintro ⟨maker, amount, trades, _⟩
  cases trades

theorem tradeDetail_cons : rule.TradeDetail prec taker left (maker :: rest) detail ↔
    ∃ amount, rule.Takes prec taker left maker amount ∧
      (detail ∈ tradeDetails rule.side taker maker amount ∨
        rule.TradeDetail prec taker (rule.remains taker left maker amount) rest detail) := by
  constructor
  · rintro ⟨other, traded, trades, mem⟩
    cases trades with
    | here takes => exact ⟨_, takes, .inl mem⟩
    | later takes next => exact ⟨_, takes, .inr ⟨_, _, next, mem⟩⟩
  · rintro ⟨amount, takes, mem | ⟨other, traded, next, mem⟩⟩
    · exact ⟨_, _, .here takes, mem⟩
    · exact ⟨_, _, .later takes next, mem⟩

end Queue

/-- The orders on the other side of the book, in its order. -/
def Market.queue (m : Market) (w : World) (side : Side) : List Order :=
  (m.book side.opposite).filterMap w.heap

/-- A rule that looks at what is left of the taker and at its terms. -/
structure MatchRule.Plain (rule : MatchRule) : Prop where
  stops : ∀ {taker taker' maker : Order}, taker.SameTerms taker' →
    rule.stops taker' maker = rule.stops taker maker
  spends : ∀ {taker taker' maker : Order} {amount : Mpd} {dealId dealId' : ℕ},
    rule.spends (makeFill rule.side taker' maker amount dealId') =
      rule.spends (makeFill rule.side taker maker amount dealId)
  volume : ∀ {fuel fuel' : ℕ} {st st' : LoopState} {maker : Order} {w w' : World}
    {choice choice' : Option Mpd}, st'.market.stockPrec = st.market.stockPrec →
    st'.taker.left = st.taker.left → rule.volume fuel st maker = some (w, choice) →
    rule.volume fuel' st' maker = some (w', choice') → choice' = choice

section Plain

theorem plain_of_restVolume {rule : MatchRule} (volume : rule.volume = restVolume)
    (spends : rule.spends = Fill.amount)
    (stops : ∀ {taker taker' maker : Order}, taker.SameTerms taker' →
      rule.stops taker' maker = rule.stops taker maker) : rule.Plain where
  stops := stops
  spends {taker taker' maker amount dealId dealId'} := by
    rw [spends, makeFill_amount, makeFill_amount]
  volume {fuel fuel' st st' maker w w' choice choice'} _ left chosen chosen' := by
    rw [volume] at chosen chosen'
    have one := (Prod.mk.inj (Option.some.inj chosen)).2
    have two := (Prod.mk.inj (Option.some.inj chosen')).2
    rw [← one, ← two]
    unfold minLeft
    rw [left]

/-- The search for an amount ends with the same one, whatever its bound. -/
theorem lowerAmount_unique {stockPrec : ℤ} {left price amount found found' : Mpd}
    {fuel fuel' : ℕ} {w w₁ w' w₁' : World}
    (run : lowerAmount stockPrec left price fuel w amount = some (w₁, found))
    (run' : lowerAmount stockPrec left price fuel' w' amount = some (w₁', found')) :
    found' = found := by
  induction fuel generalizing fuel' w w' amount with
  | zero => cases run
  | succ fuel ih =>
      cases fuel' with
      | zero => cases run'
      | succ fuel' =>
          unfold lowerAmount at run run'
          simp only at run run'
          split at run
          · rename_i large
            rw [if_pos large] at run'
            exact ih run run'
          · rename_i small
            rw [if_neg small] at run'
            cases run
            cases run'
            rfl

/-- What a market bid takes of an amount that it can pay. -/
def bidAmount (amount : Mpd) (maker : Order) : Option Mpd :=
  let amount := if mpdCmp amount maker.left > 0 then maker.left else amount
  if mpdCmp amount mpdZero = 0 then none else some amount

theorem moneyVolume_found {fuel : ℕ} {st : LoopState} {maker : Order} {w : World}
    {choice : Option Mpd} (chosen : moneyVolume fuel st maker = some (w, choice)) :
    ∃ amount, lowerAmount st.market.stockPrec st.taker.left maker.price fuel st.world
        (mpdRescale (mpdDiv st.taker.left maker.price) (-st.market.stockPrec)) =
          some (w, amount) ∧
      choice = bidAmount amount maker := by
  unfold moneyVolume at chosen
  simp only at chosen
  cases run : lowerAmount st.market.stockPrec st.taker.left maker.price fuel st.world
      (mpdRescale (mpdDiv st.taker.left maker.price) (-st.market.stockPrec)) with
  | none =>
      rw [run] at chosen
      cases chosen
  | some found =>
      rcases found with ⟨w₁, amount⟩
      rw [run] at chosen
      simp only at chosen
      have picked : some (w₁, bidAmount amount maker) = some (w, choice) := by
        rw [← chosen]
        unfold bidAmount
        exact apply_ite (fun choice => some (w₁, choice)) _ none (some _)
      cases picked
      exact ⟨amount, rfl, rfl⟩

theorem marketBidRule_plain : marketBidRule.Plain where
  stops _ := rfl
  spends := rfl
  volume := by
    intro fuel fuel' st st' maker w w' choice choice' prec left chosen chosen'
    rcases moneyVolume_found chosen with ⟨amount, run, rfl⟩
    rcases moneyVolume_found chosen' with ⟨amount', run', rfl⟩
    rw [prec, left] at run'
    rw [lowerAmount_unique run run']

theorem limitRule_plain (side : Side) : (limitRule side).Plain := by
  apply plain_of_restVolume (limitRule_volume side) (limitRule_spends side)
  intro taker taker' maker same
  cases side with
  | ask => exact congrArg (fun price => decide (mpdCmp price maker.price > 0)) same.price
  | bid => exact congrArg (fun price => decide (mpdCmp price maker.price < 0)) same.price

theorem marketRule_plain (side : Side) : (marketRule side).Plain := by
  cases side with
  | ask => exact plain_of_restVolume rfl rfl fun _ => rfl
  | bid => exact marketBidRule_plain

theorem MatchRule.Plain.takes_unique {rule : MatchRule} (plain : rule.Plain) {prec : ℤ}
    {taker maker : Order} {left amount amount' : Mpd}
    (one : rule.Takes prec taker left maker amount)
    (two : rule.Takes prec taker left maker amount') : amount' = amount := by
  rcases one.found with ⟨_, _, _, precise, same, found⟩
  rcases two.found with ⟨_, _, _, precise', same', found'⟩
  exact Option.some.inj
    (plain.volume (precise'.trans precise.symm) (same'.trans same.symm) found found')

end Plain

/-! ## The loop -/

variable [Settings] {rule : MatchRule} {start st st' : LoopState} {node : Ref} {rest : List Ref}
  {maker : Order} {now : Time} {fuel : ℕ} {w : World} {amount : Mpd}

/-- The details of the trades of an order that comes to a market. -/
def LoopState.TradeDetail (start : LoopState) (rule : MatchRule) : Detail → Prop :=
  rule.TradeDetail start.market.stockPrec start.taker start.taker.left
    (start.market.queue start.world rule.side)

/-- A loop that began in `start` and has come to `rest`: the details of the trades of the whole
queue are those that are written and those of what is ahead. -/
structure DetailWalk (rule : MatchRule) (start : LoopState) (rest : List Ref) (st : LoopState) :
    Prop where
  position : At rule rest st
  terms : start.taker.SameTerms st.taker
  prec : st.market.stockPrec = start.market.stockPrec
  ahead : ∀ x ∈ rest, st.world.heap x = start.world.heap x
  written : ∃ details, start.world.Writes details st.world ∧ ∀ detail,
    start.TradeDetail rule detail ↔ detail ∈ details ∨
      rule.TradeDetail start.market.stockPrec start.taker st.taker.left
        (rest.filterMap start.world.heap) detail

/-- The details written from `start` on are those of the trades of the whole queue. -/
def WroteTrades (rule : MatchRule) (start st : LoopState) : Prop :=
  ∃ details, start.world.Writes details st.world ∧
    ∀ detail, start.TradeDetail rule detail ↔ detail ∈ details

omit [Settings] in
/-- Where the taker takes nothing of the next maker, all is written. -/
theorem DetailWalk.wrote (walk : DetailWalk rule start rest st) (out : w.out = st.world.out)
    (nothing : ∀ maker makers amount, rest.filterMap start.world.heap = maker :: makers →
      ¬rule.Takes start.market.stockPrec start.taker st.taker.left maker amount) :
    WroteTrades rule start { st with world := w } := by
  rcases walk.written with ⟨details, writes, whole⟩
  refine ⟨details, writes.before (.of_out out), fun detail => ?_⟩
  rw [whole]
  apply or_iff_left
  cases makers : rest.filterMap start.world.heap with
  | nil => exact not_tradeDetail_nil
  | cons maker rest =>
      rw [tradeDetail_cons]
      rintro ⟨amount, takes, _⟩
      exact nothing maker rest amount makers takes

omit [Settings] in
theorem DetailWalk.next (walk : DetailWalk rule start (node :: rest) st)
    (rests : st.market.Rests st.world.heap node maker) :
    (node :: rest).filterMap start.world.heap =
      maker :: rest.filterMap start.world.heap := by
  have found := (walk.ahead node List.mem_cons_self).symm.trans rests.1
  exact List.filterMap_cons_some found

omit [Settings] in
theorem DetailWalk.ends (plain : rule.Plain) (walk : DetailWalk rule start rest st)
    (ends : Ends rule rest st) : WroteTrades rule start st := by
  apply walk.wrote rfl
  intro maker makers amount queued takes
  rcases ends with rfl | spent | ⟨node, tail, other, rfl, rests, _, stop⟩
  · cases queued
  · exact takes.unfinished spent
  · rw [walk.next rests] at queued
    cases queued
    have accepts := takes.acceptable
    rw [← plain.stops walk.terms, stop] at accepts
    cases accepts

omit [Settings] in
theorem DetailWalk.dry (plain : rule.Plain) (sane : rule.Sane)
    (walk : DetailWalk rule start (node :: rest) st) (meets : Meets rule st node maker)
    (none_ : rule.volume fuel st maker = some (w, none)) :
    WroteTrades rule start { st with world := w } := by
  apply walk.wrote (sane.observes none_).out
  intro other makers amount queued takes
  rw [walk.next meets.rests] at queued
  cases queued
  rcases takes.found with ⟨fuel', st', w', prec, left, found⟩
  cases plain.volume (prec.trans walk.prec.symm) left none_ found

/-- A turn of the loop writes the details of the next trade. -/
theorem DetailWalk.fill (plain : rule.Plain) (sane : rule.Sane)
    (walk : DetailWalk rule start (node :: rest) st) (meets : Meets rule st node maker)
    (found : rule.volume fuel st maker = some (w, some amount)) :
    DetailWalk rule start rest
      (matchFill true now rule { st with world := w } node maker amount) := by
  have observed := sane.observes found
  have filled := (walk.position.fill true now amount meets observed).1
  have position := (walk.position.fill true now amount meets observed).2
  have takes : rule.Takes start.market.stockPrec start.taker st.taker.left maker amount := by
    refine ⟨meets.unfinished, ?_, fuel, st, w, walk.prec, rfl, found⟩
    rw [← plain.stops walk.terms]
    exact meets.acceptable
  constructor
  · exact position
  · exact walk.terms.trans (LoopState.sameTerms_takerAfter { st with world := w } now rule maker
      amount)
  · exact (congrArg MarketConf.stockPrec filled.conf).trans walk.prec
  · intro x mem
    rw [filled.heap x (walk.position.ahead x mem)]
    exact (congrFun observed.heap x).trans (walk.ahead x (List.mem_cons_of_mem node mem))
  · rcases walk.written with ⟨details, writes, whole⟩
    have now_ := matchFill_writes now rule { st with world := w } node maker amount
    refine ⟨_, writes.trans (now_.after observed.out), fun detail => ?_⟩
    rw [whole, walk.next meets.rests, tradeDetail_cons, List.mem_append, or_assoc]
    apply or_congr_right
    have left : (matchFill true now rule { st with world := w } node maker amount).taker.left =
        rule.remains start.taker st.taker.left maker amount :=
      congrArg (mpdSub st.taker.left) plain.spends
    rw [left, tradeDetails_sameTerms walk.terms]
    constructor
    · rintro ⟨amount', takes', mem⟩
      rwa [plain.takes_unique takes takes'] at mem
    · intro mem
      exact ⟨amount, takes, mem⟩

/-- A loop over a book in order writes the details of the trades of the taker with the orders
that are in the book when it comes. -/
theorem execute_writes (plain : rule.Plain) (sane : rule.Sane)
    (inv : BookInv start.market start.world.heap)
    (run : execute true now fuel rule start = some st') : WroteTrades rule start st' := by
  have begins : DetailWalk rule start (start.market.book rule.side.opposite) start := by
    refine ⟨.start inv, .refl _, rfl, fun _ _ => rfl, [], .refl _, fun detail => ?_⟩
    exact (or_iff_right List.not_mem_nil).symm
  exact matchLoop_rule true now rule (DetailWalk rule start) (WroteTrades rule start)
    DetailWalk.position (DetailWalk.ends plain) (DetailWalk.dry plain sane)
    (DetailWalk.fill plain sane) fuel begins run

end Trades

/-! ## The commands -/

section Commands

variable [Libmpdec] [Settings] {e e' : Engine} {now : Time} {fuel padding : ℕ}
  {params : List Json} {command : Command} {reply : Reply}

/-- A limit order as it comes to its market. -/
def LimitArgs.order (a : LimitArgs) (now : Time) (w : World) : Order :=
  newOrder now a.market w .limit a.userId a.side a.amount a.price a.takerFee a.makerFee a.source

/-- A market order as it comes to its market. -/
def MarketArgs.order (a : MarketArgs) (now : Time) (w : World) : Order :=
  newOrder now a.market w .market a.userId a.side a.amount mpdZero a.takerFee mpdZero a.source

/-- A detail of one of the trades of a command, with the orders that rest before it. -/
def Command.TradeDetail (e : Engine) (now : Time) (detail : Detail) : Command → Prop
  | .orderPutLimit params => ∃ a, readLimitArgs liveTooLong e.markets params = .ok a ∧
      LoopState.TradeDetail ⟨a.market, e.world, a.order now e.world⟩ (limitRule a.side) detail
  | .orderPutMarket params => ∃ a, readMarketArgs liveTooLong e.markets params = .ok a ∧
      LoopState.TradeDetail ⟨a.market, e.world, a.order now e.world⟩ (marketRule a.side) detail
  | .balanceUpdate .. | .orderCancel _ => False

/-- The book of every market is in order. -/
def Engine.InOrder (e : Engine) : Prop :=
  ∀ {name m}, dictFind e.markets name = some m → BookInv m e.world.heap

omit [Libmpdec] in
theorem EngineInv.inOrder (inv : EngineInv e) : e.InOrder :=
  fun found => (inv.market found).index.toBookInv

theorem restOrFinish_writes (st : LoopState) :
    st.world.Writes [] (restOrFinish true st).world := by
  have observed (w : World) (order : Order) : (w.observeFreeze order).out = w.out := by
    unfold World.observeFreeze
    split <;> rfl
  have put (m : Market) (w : World) (order : Order) : w.Writes [] (orderPut m w order).2.2 := by
    unfold orderPut
    simp only
    split
    · exact .of_out rfl
    · split
      · exact .of_out rfl
      · split
        · exact .of_out rfl
        · split
          · exact .of_out rfl
          · exact .of_out (observed _ _)
  unfold restOrFinish
  simp only
  split
  · exact (World.emit_plain _ true rfl).before (World.emit_plain _ true rfl)
  · exact (World.emit_plain _ true rfl).before (put _ _ _)

omit [Libmpdec] [Settings] in
theorem finishMarket_writes (st : LoopState) :
    st.world.Writes [] (finishMarket true st).world :=
  (World.emit_plain _ true rfl).before (World.emit_plain _ true rfl)

omit [Settings] in
theorem LoopState.tradeDetail_congr {start start' : LoopState}
    (market : start'.market = start.market) (heap : start'.world.heap = start.world.heap)
    (taker : start'.taker = start.taker) (rule : MatchRule) (detail : Detail) :
    start'.TradeDetail rule detail ↔ start.TradeDetail rule detail := by
  unfold LoopState.TradeDetail Market.queue
  rw [market, heap, taker]

omit [Libmpdec] [Settings] in
theorem newOrder_observed {w w' : World} (observed : w.Observed w') (m : Market)
    (type : OrderType) (userId : ℕ) (side : Side) (amount price takerFee makerFee : Mpd)
    (source : String) :
    newOrder now m w' type userId side amount price takerFee makerFee source =
      newOrder now m w type userId side amount price takerFee makerFee source := by
  unfold newOrder
  rw [observed.orderIdStart]

omit [Settings] in
theorem LimitArgs.start_tradeDetail (a : LimitArgs) (w : World) (rule : MatchRule)
    (detail : Detail) : (a.start now w).TradeDetail rule detail ↔
      LoopState.TradeDetail ⟨a.market, w, a.order now w⟩ rule detail := by
  have observed := w.observeRequire_observed a.side a.amount a.price
  apply LoopState.tradeDetail_congr
  · rfl
  · exact observed.heap
  · exact newOrder_observed observed ..

omit [Settings] in
theorem MarketArgs.start_tradeDetail (a : MarketArgs) (w : World) (best : Order)
    (rule : MatchRule) (detail : Detail) : (a.start now w best).TradeDetail rule detail ↔
      LoopState.TradeDetail ⟨a.market, w, a.order now w⟩ rule detail := by
  have observed := marketRequire_observed w a.market a.side best
  apply LoopState.tradeDetail_congr
  · rfl
  · exact observed.heap
  · exact newOrder_observed observed ..

/-- From where an order comes to its market to where it has been dealt with. -/
theorem LoopState.detailsSince {rule : MatchRule} {start st' : LoopState} {w w' : World}
    (plain : rule.Plain) (sane : rule.Sane) (inv : BookInv start.market start.world.heap)
    (run : execute true now fuel rule start = some st') (before : start.world.out = w.out)
    (after : st'.world.Writes [] w') (detail : Detail) :
    start.TradeDetail rule detail ↔ detail ∈ w.detailsSince w' := by
  rcases execute_writes plain sane inv run with ⟨details, writes, whole⟩
  rw [((writes.before after).after before).detailsSince]
  exact whole detail

/-- The rows of an order command have the details of its trades. -/
theorem handle_tradeDetail (inOrder : e.InOrder)
    (run : e.handle now fuel command = some (reply, e'))
    (accepted : ∀ code message, reply ≠ .error code message)
    (order : ∀ padding params, command ≠ .balanceUpdate padding params) (detail : Detail) :
    command.TradeDetail e now detail ↔ detail ∈ e.world.detailsSince e'.world := by
  cases command with
  | balanceUpdate padding params => exact absurd rfl (order padding params)
  | orderPutLimit params =>
      rcases onCmdOrderPutLimit_cases run with refused | ⟨a, st', read, _, executed, _, rfl⟩
      · rcases refused.1 with ⟨code, message, error⟩
        exact absurd error (accepted code message)
      · rcases readLimitArgs_eq_ok.mp read with ⟨_, _, _, _, _, _, _, _, found, _⟩
        have observed := e.world.observeRequire_observed a.side a.amount a.price
        have inv : BookInv (a.start now e.world).market (a.start now e.world).world.heap := by
          change BookInv a.market (e.world.observeRequire a.side a.amount a.price).heap
          rw [observed.heap]
          exact inOrder found
        have whole := LoopState.detailsSince (limitRule_plain a.side) (limitRule_sane a.side) inv
          executed observed.out (restOrFinish_writes st') detail
        rw [a.start_tradeDetail] at whole
        constructor
        · rintro ⟨a', read', trade⟩
          cases read.symm.trans read'
          exact whole.mp trade
        · intro mem
          exact ⟨a, read, whole.mpr mem⟩
  | orderPutMarket params =>
      rcases onCmdOrderPutMarket_cases run with refused | ⟨a, best, st', read, _, executed, _, rfl⟩
      · rcases refused.1 with ⟨code, message, error⟩
        exact absurd error (accepted code message)
      · rcases readMarketArgs_eq_ok.mp read with ⟨_, _, _, _, _, _, found, _⟩
        have observed := marketRequire_observed e.world a.market a.side best
        have inv : BookInv (a.start now e.world best).market
            (a.start now e.world best).world.heap := by
          change BookInv a.market (marketRequire e.world a.market a.side best).2.heap
          rw [observed.heap]
          exact inOrder found
        have whole := LoopState.detailsSince (marketRule_plain a.side) (marketRule_sane a.side) inv
          executed observed.out (finishMarket_writes st') detail
        rw [a.start_tradeDetail] at whole
        constructor
        · rintro ⟨a', read', trade⟩
          cases read.symm.trans read'
          exact whole.mp trade
        · intro mem
          exact ⟨a, read, whole.mpr mem⟩
  | orderCancel params =>
      rcases onCmdOrderCancel_cases (Option.some.inj run) with
        refused | ⟨a, ref, order, _, _, _, _, rfl⟩
      · rcases refused.1 with ⟨code, message, error⟩
        exact absurd error (accepted code message)
      · have writes : e.world.Writes [] (marketCancelOrder true a.market e.world ref order).world :=
          (World.emit_plain _ true rfl).before (orderFinish_writes ..)
        exact iff_of_false id (writes.detailsSince ▸ List.not_mem_nil)

end Commands

end ViabtcServer.MatchEngine
