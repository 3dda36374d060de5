import ViabtcServer.MatchEngine.Index
import ViabtcServer.MatchEngine.Load

/-!
# Leaving out time and output

A live run differs from its replay in the times it reads and in what it writes
to history and messages. Both are left out here: every operation commutes with
leaving them out, and then no longer depends on the clock or on being live.
-/

namespace ViabtcServer.MatchEngine

open Decimal Container

/-! ## The state without time -/

/-- An order without its timestamps. -/
def Order.untimed (order : Order) : Order :=
  { order with createTime := 0, updateTime := 0 }

/-- A world without the timestamps of its orders and without output. -/
def World.untimed (w : World) : World :=
  { w with heap := fun ref => (w.heap ref).map Order.untimed, out := [], totals := true }

def LoopState.untimed (st : LoopState) : LoopState :=
  ⟨st.market, st.world.untimed, st.taker.untimed⟩

/-- An outcome without time, output and reply. -/
def Outcome.untimed (outcome : Outcome) : Outcome :=
  ⟨outcome.ret, none, outcome.market, outcome.world.untimed⟩

/-- An engine without time, output and log. -/
def Engine.untimed (e : Engine) : Engine :=
  { e with world := e.world.untimed, operlogIdStart := 0, operlog := [] }

section World

variable (w : World) (real : Bool) (ref : Ref) (order : Order)

@[simp]
theorem Order.untimed_untimed : order.untimed.untimed = order.untimed := rfl

@[simp]
theorem World.untimed_ledger : w.untimed.ledger = w.ledger := rfl

@[simp]
theorem World.untimed_heap : w.untimed.heap ref = (w.heap ref).map Order.untimed := rfl

@[simp]
theorem World.untimed_emit (output : Output) : (w.emit real output).untimed = w.untimed := by
  cases real <;> rfl

@[simp]
theorem World.emit_false (output : Output) : w.emit false output = w := rfl

@[simp]
theorem World.untimed_observe (result : Mpd) (expected : ℚ) :
    (w.observe result expected).untimed = w.untimed.observe result expected := rfl

@[simp]
theorem World.untimed_discard (call : Option Mpd × Ledger) :
    (w.discard call).untimed = w.untimed.discard call := rfl

theorem Option.map_update {α β : Type} (f : α → β) (heap : Ref → Option α) (value : Option α) :
    (fun x => (Function.update heap ref value x).map f) =
      Function.update (fun x => (heap x).map f) ref (value.map f) := by
  funext x
  by_cases same : x = ref
  · subst same
    rw [Function.update_self, Function.update_self]
  · rw [Function.update_of_ne same, Function.update_of_ne same]

@[simp]
theorem World.untimed_store :
    (w.store ref order).untimed = w.untimed.store ref order.untimed := by
  unfold World.untimed World.store
  simp only [Option.map_update, Option.map_some]

@[simp]
theorem untimed_orderFree : (orderFree w ref).untimed = orderFree w.untimed ref := by
  unfold World.untimed orderFree
  simp only [Option.map_update, Option.map_none]

end World

variable [Libmpdec]

/-! ## Comparing and unlinking -/

section Indexes

variable (m : Market) (w : World) (order : Order) (ref : Ref)

omit [Libmpdec] in
theorem compareAt_untimed (compare : Order → Order → ℤ)
    (same : ∀ a b : Order, compare a.untimed b.untimed = compare a b) :
    compareAt w.untimed.heap compare = compareAt w.heap compare := by
  funext x y
  unfold compareAt
  rw [World.untimed_heap, World.untimed_heap]
  cases w.heap x with
  | none => rfl
  | some a =>
      cases w.heap y with
      | none => rfl
      | some b => exact same a b

theorem orderMatchCompare_untimed : compareAt w.untimed.heap orderMatchCompare =
    compareAt w.heap orderMatchCompare :=
  compareAt_untimed w orderMatchCompare fun _ _ => rfl

omit [Libmpdec] in
theorem orderIdCompare_untimed : compareAt w.untimed.heap orderIdCompare =
    compareAt w.heap orderIdCompare :=
  compareAt_untimed w orderIdCompare fun _ _ => rfl

theorem unlinkBook_untimed :
    unlinkBook m w.untimed order.untimed ref = unlinkBook m w order ref := by
  unfold unlinkBook
  rw [orderMatchCompare_untimed]
  rfl

omit [Libmpdec] in
theorem unlinkUser_untimed :
    unlinkUser m w.untimed order.untimed ref = unlinkUser m w order ref := by
  unfold unlinkUser
  rw [orderIdCompare_untimed]
  rfl

omit [Libmpdec] in
theorem putUser_untimed : putUser m w.untimed order.untimed ref = putUser m w order ref := by
  unfold putUser
  rw [orderIdCompare_untimed]
  rfl

end Indexes

/-! ## Putting and finishing -/

variable [Settings]

/-- Leave time and output out of a result with a flag and a market. -/
def untimedResult {α : Type} (result : α × Market × World) : α × Market × World :=
  (result.1, result.2.1, result.2.2.untimed)

theorem orderPut_untimed (m : Market) (w : World) (order : Order) :
    orderPut m w.untimed order.untimed = untimedResult (orderPut m w order) := by
  have stored : { w.untimed.store w.nextRef order.untimed with nextRef := w.nextRef + 1 } =
      World.untimed { w.store w.nextRef order with nextRef := w.nextRef + 1 } := by
    rw [← World.untimed_store]
    rfl
  have observed (w : World) : w.untimed.observeFreeze order.untimed =
      (w.observeFreeze order).untimed := by
    have side : order.untimed.side = order.side := rfl
    unfold World.observeFreeze
    rw [side]
    cases order.side <;> rfl
  have heap : compareAt (w.untimed.store w.nextRef order.untimed).heap orderMatchCompare =
      compareAt (w.store w.nextRef order).heap orderMatchCompare := by
    rw [← World.untimed_store, orderMatchCompare_untimed]
  have type : order.untimed.type = order.type := rfl
  have id : order.untimed.id = order.id := rfl
  have side : order.untimed.side = order.side := rfl
  have user : order.untimed.userId = order.userId := rfl
  have freeze : freezeAmount order.untimed = freezeAmount order := rfl
  have nextRef : w.untimed.nextRef = w.nextRef := rfl
  unfold orderPut
  simp only [nextRef, stored, heap, type, id, side, user, freeze, putUser_untimed, observed]
  split
  · rfl
  split
  · rfl
  split
  · rfl
  split
  · rfl
  unfold untimedResult
  simp only [World.untimed_discard, World.untimed_store, World.store_ledger, World.untimed_ledger]
  rfl

omit [Settings] in
theorem orderRemove_untimed (real : Bool) (m : Market) (w : World) (order : Order) (ref : Ref) :
    orderRemove false m w.untimed order.untimed ref =
      ((orderRemove real m w order ref).1, (orderRemove real m w order ref).2.untimed) := by
  unfold orderRemove
  simp only [Bool.false_and, World.emit_false, untimed_orderFree, World.untimed_emit]
  rw [unlinkUser_untimed]
  rfl

theorem orderFinish_untimed (real : Bool) (m : Market) (w : World) (ref : Ref) :
    orderFinish false m w.untimed ref = untimedResult (orderFinish real m w ref) := by
  unfold orderFinish
  rw [World.untimed_heap]
  cases w.heap ref with
  | none => rfl
  | some order =>
      have freeze : order.untimed.freeze = order.freeze := rfl
      have user : order.untimed.userId = order.userId := rfl
      have side : order.untimed.side = order.side := rfl
      simp only [Option.map_some, freeze, user, side, unlinkBook_untimed, World.untimed_ledger,
        ← World.untimed_discard]
      split
      · split
        · rfl
        · rw [orderRemove_untimed real]
          rfl
      · rw [orderRemove_untimed real]
        rfl

/-! ## Settling -/

section Settle

variable (real : Bool) (now : Time) (conf : MarketConf) (w : World) (order : Order) (side : Side)
  (source : BalanceType) (f : Fill) (feeRate : Mpd) (node : Ref)

theorem settlePays_untimed : settlePays false conf w.untimed order.untimed side source f =
    (settlePays real conf w order side source f).untimed := by
  unfold settlePays appendBalanceTradeSub appendBalanceTrade
  rw [World.untimed_emit, World.untimed_discard]
  rfl

theorem settleReceives_untimed : settleReceives false conf w.untimed order.untimed side f =
    (settleReceives real conf w order side f).untimed := by
  unfold settleReceives appendBalanceTradeAdd appendBalanceTrade
  rw [World.untimed_emit, World.untimed_discard]
  rfl

theorem settleFee_untimed : settleFee false conf w.untimed order.untimed side f feeRate =
    (settleFee real conf w order side f feeRate).untimed := by
  unfold settleFee appendBalanceTradeFee appendBalanceTrade
  split
  · rw [World.untimed_emit, World.untimed_discard]
    rfl
  · rfl

theorem settle_untimed : settle false conf w.untimed order.untimed side source f feeRate =
    (settle real conf w order side source f feeRate).untimed := by
  unfold settle
  simp only [settlePays_untimed real, settleReceives_untimed real, settleFee_untimed real]

omit [Settings] in
theorem Order.untimed_record (spent : Mpd) :
    (order.record now side f spent).untimed = order.untimed.record 0 side f spent := rfl

theorem fillTaker_untimed (rule : MatchRule) (taker : Order) :
    fillTaker false 0 rule conf w.untimed taker.untimed f =
      ((fillTaker real now rule conf w taker f).1.untimed,
        (fillTaker real now rule conf w taker f).2.untimed) := by
  unfold fillTaker
  simp only [← Order.untimed_record now, ← settle_untimed real]
  rfl

theorem fillMaker_untimed (maker : Order) :
    fillMaker false 0 side conf w.untimed node maker.untimed f =
      (fillMaker real now side conf w node maker f).untimed := by
  unfold fillMaker
  rw [← settle_untimed real, World.untimed_store]
  rfl

omit [Libmpdec] [Settings] in
theorem openDeal_untimed (market : String) : w.untimed.openDeal false 0 conf market f =
    (w.openDeal real now conf market f).untimed := by
  unfold World.openDeal
  simp only [World.untimed_emit, World.emit_false]
  rfl

theorem closeMaker_untimed (m : Market) (maker : Order) :
    closeMaker false m w.untimed node maker.untimed =
      ((closeMaker real m w node maker).1, (closeMaker real m w node maker).2.untimed) := by
  unfold closeMaker
  have left : maker.untimed.left = maker.left := rfl
  simp only [left, World.emit_false]
  split
  · rw [← World.untimed_emit w real (.orderMessage .finish maker m.stock m.money),
      orderFinish_untimed real]
    rfl
  · rw [World.untimed_emit]

end Settle

/-! ## The loops -/

section Loops

variable (real : Bool) (now : Time) (rule : MatchRule)

theorem matchFill_untimed (st : LoopState) (node : Ref) (maker : Order) (amount : Mpd) :
    matchFill false 0 rule st.untimed node maker.untimed amount =
      (matchFill real now rule st node maker amount).untimed := by
  have rates : feeRates rule.side st.taker.untimed maker.untimed =
      feeRates rule.side st.taker maker := rfl
  have fill : makeFill rule.side st.taker.untimed maker.untimed amount
      (st.world.untimed.dealsIdStart + 1) =
      makeFill rule.side st.taker maker amount (st.world.dealsIdStart + 1) := by
    unfold makeFill
    cases rule.side <;> rfl
  have observed (f : Fill) (rates : Mpd × Mpd) : st.world.untimed.observeFill f rates =
      (st.world.observeFill f rates).untimed := rfl
  have closed (f : Fill) : makerAfter maker.untimed 0 rule.side.opposite f =
      (makerAfter maker now rule.side.opposite f).untimed := rfl
  unfold matchFill
  simp only [LoopState.untimed, rates, fill, observed, closed, openDeal_untimed real now,
    fillTaker_untimed real now, fillMaker_untimed real now, closeMaker_untimed real]
  -- the name of the market is the same with and without time
  rfl

/-- A rule that does not look at times. -/
structure MatchRule.Timeless (rule : MatchRule) : Prop where
  stops : ∀ taker maker : Order, rule.stops taker.untimed maker.untimed = rule.stops taker maker
  volume : ∀ (fuel : ℕ) (st : LoopState) (maker : Order),
    rule.volume fuel st.untimed maker.untimed =
      (rule.volume fuel st maker).map fun choice => (choice.1.untimed, choice.2)

omit [Settings] in
theorem limitAskRule_timeless : limitAskRule.Timeless :=
  ⟨fun _ _ => rfl, fun _ _ _ => rfl⟩

omit [Settings] in
theorem limitBidRule_timeless : limitBidRule.Timeless :=
  ⟨fun _ _ => rfl, fun _ _ _ => rfl⟩

omit [Settings] in
theorem marketAskRule_timeless : marketAskRule.Timeless :=
  ⟨fun _ _ => rfl, fun _ _ _ => rfl⟩

omit [Settings] in
theorem lowerAmount_untimed (stockPrec : ℤ) (left price : Mpd) (fuel : ℕ) (w : World)
    (amount : Mpd) : lowerAmount stockPrec left price fuel w.untimed amount =
      (lowerAmount stockPrec left price fuel w amount).map
        fun result => (result.1.untimed, result.2) := by
  induction fuel generalizing w amount with
  | zero => rfl
  | succ fuel ih =>
      unfold lowerAmount
      simp only [← World.untimed_observe]
      split
      · exact ih _ _
      · rfl

omit [Settings] in
theorem marketBidRule_timeless : marketBidRule.Timeless := by
  constructor
  · intro taker maker
    rfl
  · intro fuel st maker
    have left : st.untimed.taker.left = st.taker.left := rfl
    have price : maker.untimed.price = maker.price := rfl
    have rest : maker.untimed.left = maker.left := rfl
    have prec : st.untimed.market.stockPrec = st.market.stockPrec := rfl
    have world : st.untimed.world = st.world.untimed := rfl
    unfold marketBidRule moneyVolume
    simp only [left, price, rest, prec, world, lowerAmount_untimed]
    cases lowerAmount st.market.stockPrec st.taker.left maker.price fuel st.world
      (mpdRescale (mpdDiv st.taker.left maker.price) (-st.market.stockPrec)) with
    | none => rfl
    | some result =>
        simp only [Option.map_some]
        generalize (if mpdCmp result.2 maker.left > 0 then maker.left else result.2) = amount
        by_cases zero : mpdCmp amount mpdZero = 0
        · simp only [if_pos zero, Option.map_some]
        · simp only [if_neg zero, Option.map_some]

/-- A loop does the same without time. -/
theorem matchLoop_untimed (timeless : rule.Timeless) (fuel : ℕ) (node : Option Ref)
    (st : LoopState) : matchLoop false 0 rule fuel node st.untimed =
      (matchLoop real now rule fuel node st).map LoopState.untimed := by
  induction fuel generalizing node st with
  | zero => rfl
  | succ fuel ih =>
      cases node with
      | none => rfl
      | some node =>
          have left : st.untimed.taker.left = st.taker.left := rfl
          have book : st.untimed.market.book = st.market.book := rfl
          have heap : st.untimed.world.heap node = (st.world.heap node).map Order.untimed := rfl
          unfold matchLoop
          simp only [left, book, heap]
          split
          · rfl
          cases st.world.heap node with
          | none => rfl
          | some maker =>
              have stops : rule.stops st.untimed.taker maker.untimed =
                  rule.stops st.taker maker := timeless.stops _ _
              simp only [Option.map_some, stops, timeless.volume]
              split
              · rfl
              cases rule.volume fuel st maker with
              | none => rfl
              | some choice =>
                  rcases choice with ⟨w, amount⟩
                  cases amount with
                  | none => rfl
                  | some amount =>
                      simp only [Option.map_some]
                      rw [← ih, ← matchFill_untimed real now]
                      rfl

theorem execute_untimed (timeless : rule.Timeless) (fuel : ℕ) (st : LoopState) :
    execute false 0 fuel rule st.untimed =
      (execute real now fuel rule st).map LoopState.untimed := by
  unfold execute
  exact matchLoop_untimed real now rule timeless fuel _ st

/-! ## Room for turns -/

/-- A rule whose search for an amount needs no more room once it has ended. -/
def MatchRule.Settled (rule : MatchRule) : Prop :=
  ∀ {fuel st maker choice}, rule.volume fuel st maker = some choice →
    rule.volume (fuel + 1) st maker = some choice

omit [Settings] in
theorem lowerAmount_more {stockPrec : ℤ} {left price : Mpd} {fuel : ℕ} {w : World} {amount : Mpd}
    {result : World × Mpd} (run : lowerAmount stockPrec left price fuel w amount = some result) :
    lowerAmount stockPrec left price (fuel + 1) w amount = some result := by
  induction fuel generalizing w amount with
  | zero => cases run
  | succ fuel ih =>
      unfold lowerAmount at run ⊢
      simp only at run ⊢
      split at run
      · rename_i large
        rw [if_pos large]
        exact ih run
      · rename_i fits
        rw [if_neg fits]
        exact run

omit [Settings] in
theorem marketBidRule_settled : marketBidRule.Settled := by
  intro fuel st maker choice chosen
  change moneyVolume fuel st maker = some choice at chosen
  change moneyVolume (fuel + 1) st maker = some choice
  unfold moneyVolume at chosen ⊢
  simp only at chosen ⊢
  split at chosen
  · cases chosen
  · rename_i run
    rw [lowerAmount_more run]
    exact chosen

/-- More room does not change how a loop ends. -/
theorem matchLoop_more {rule : MatchRule} (settled : rule.Settled) {fuel : ℕ}
    {node : Option Ref} {st st' : LoopState}
    (run : matchLoop real now rule fuel node st = some st') :
    matchLoop real now rule (fuel + 1) node st = some st' := by
  induction fuel generalizing node st with
  | zero => cases run
  | succ fuel ih =>
      cases node with
      | none => exact run
      | some node =>
          unfold matchLoop at run ⊢
          simp only at run ⊢
          split at run
          · rename_i finished
            rw [if_pos finished]
            exact run
          rename_i unfinished
          rw [if_neg unfinished]
          split at run
          · cases run
          rename_i maker found
          split at run
          · rename_i stops
            rw [if_pos stops]
            exact run
          rename_i acceptable
          rw [if_neg acceptable]
          split at run
          · cases run
          · rename_i chosen
            rw [settled chosen]
            exact run
          · rename_i chosen
            rw [settled chosen]
            exact ih run

theorem execute_mono {rule : MatchRule} (settled : rule.Settled) {fuel fuel' : ℕ}
    (more : fuel ≤ fuel') {st st' : LoopState}
    (run : execute real now fuel rule st = some st') :
    execute real now fuel' rule st = some st' := by
  induction more with
  | refl => exact run
  | step _ ih => exact matchLoop_more real now settled ih

end Loops

end ViabtcServer.MatchEngine
