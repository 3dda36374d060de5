import ViabtcServer.MatchEngine.Arithmetic
import ViabtcServer.MatchEngine.Repeat

/-!
# What is admitted

The checks of the handlers compare a decimal with zero and one, and a comparison
with a NaN answers `INT_MAX`: a NaN and an infinity pass as positive amounts and
prices. `decimal` leaves a number as it is when the precision is zero. Apart from
these the decimals a handler passes on are numbers within their bounds, and an
order is admitted only when the available balance covers it.
-/

namespace ViabtcServer.MatchEngine

open Decimal Container

section Admission

variable [Libmpdec] [Settings] {e e₀ : Engine} {prec : ℤ} {json : Json} {value : Mpd}
  {params : List Json}

/-! ## What a handler promises -/

/-- What the order may come to pay. -/
def LimitArgs.required (a : LimitArgs) : ℚ :=
  match a.side with
  | .ask => a.amount.value
  | .bid => a.amount.value * a.price.value

/-- The decimals of the order are numbers within their bounds, and if it is
admitted the available balance covers it. -/
structure LimitArgs.Admissible (e : Engine) (a : LimitArgs) : Prop where
  terms : LimitTerms a.market.toMarketConf a.amount a.price a.takerFee a.makerFee
  covered : ∀ {now : Time} {fuel : ℕ} {outcome : Outcome},
    a.put true now fuel e.world = some outcome → outcome.ret = 0 →
      a.required ≤ e.world.ledger.holds ⟨a.userId, .available, a.market.gives a.side⟩

structure MarketArgs.Admissible (e : Engine) (a : MarketArgs) : Prop where
  terms : MarketTerms a.market.toMarketConf a.amount a.takerFee
  covered : ∀ {now : Time} {fuel : ℕ} {outcome : Outcome},
    a.put true now fuel e.world = some outcome → outcome.ret = 0 →
      a.amount.value ≤ e.world.ledger.holds ⟨a.userId, .available, a.market.gives a.side⟩

/-- The change is a number with at most the digits it was asked with. -/
structure UpdateArgs.Admissible (a : UpdateArgs) : Prop where
  changeFinite : a.change.isFinite
  changeDigits : FracDigits (assetPrecShow a.asset) a.change.value

/-- Whatever decimals the handler passes on are as they should be. -/
def Command.Admissible (e : Engine) : Command → Prop
  | .balanceUpdate _ params => ∀ a, AcceptsUpdate params a → a.Admissible
  | .orderPutLimit params =>
      ∀ a, readLimitArgs liveTooLong e.markets params = .ok a → a.Admissible e
  | .orderPutMarket params =>
      ∀ a, readMarketArgs liveTooLong e.markets params = .ok a → a.Admissible e
  | .orderCancel _ => True

/-! ## What the texts have to be -/

/-- A text that is read as a decimal is read as a number, and as a whole one when
the precision is zero. -/
def Numeral (prec : ℤ) (json : Json) : Prop :=
  0 ≤ prec ∧ ∀ text value, json = .string text → mpdSetString text = some value →
    value.isFinite ∧ (prec = 0 → FracDigits 0 value.value)

def LimitArgs.ReadsNumbers (a : LimitArgs) : List Json → Prop
  | [_, _, _, amount, price, takerFee, makerFee, _] =>
      Numeral a.market.stockPrec amount ∧ Numeral a.market.moneyPrec price ∧
        Numeral a.market.feePrec takerFee ∧ Numeral a.market.feePrec makerFee
  | _ => True

def MarketArgs.ReadsNumbers (a : MarketArgs) : List Json → Prop
  | [_, _, _, amount, takerFee, _] =>
      Numeral a.market.stockPrec amount ∧ Numeral a.market.feePrec takerFee
  | _ => True

def UpdateArgs.ReadsNumbers (a : UpdateArgs) : List Json → Prop
  | [_, _, _, _, change, _] => Numeral (assetPrecShow a.asset) change
  | _ => True

/-- The decimals of a command that gets past the checks are written as numbers. -/
def Command.ReadsNumbers (e : Engine) : Command → Prop
  | .balanceUpdate _ params => ∀ a, AcceptsUpdate params a → a.ReadsNumbers params
  | .orderPutLimit params =>
      ∀ a, readLimitArgs liveTooLong e.markets params = .ok a → a.ReadsNumbers params
  | .orderPutMarket params =>
      ∀ a, readMarketArgs liveTooLong e.markets params = .ok a → a.ReadsNumbers params
  | .orderCancel _ => True

omit [Settings] in
/-- What was read is a number with its digits precisely when the text was. -/
theorem jsonDecimal_number_iff (read : jsonDecimal prec json = .ok value) :
    value.isFinite ∧ FracDigits prec value.value ↔ Numeral prec json := by
  rcases jsonDecimal_eq_ok.mp read with ⟨text, rfl, converted⟩
  rcases Option.map_eq_some_iff.mp converted with ⟨set, conversion, same⟩
  have only : Numeral prec (.string text) ↔
      0 ≤ prec ∧ set.isFinite ∧ (prec = 0 → FracDigits 0 set.value) := by
    unfold Numeral
    constructor
    · rintro ⟨nonneg, all⟩
      exact ⟨nonneg, all text set rfl conversion⟩
    · rintro ⟨nonneg, finite, whole⟩
      refine ⟨nonneg, fun text' value' same' conversion' => ?_⟩
      obtain rfl := Json.string.inj same'
      rw [conversion] at conversion'
      obtain rfl := Option.some.inj conversion'
      exact ⟨finite, whole⟩
  rw [only]
  by_cases zero : prec = 0
  · subst zero
    rw [if_neg (by simp)] at same
    subst same
    constructor
    · rintro ⟨finite, digits⟩
      exact ⟨le_rfl, finite, fun _ => digits⟩
    · rintro ⟨_, finite, digits⟩
      exact ⟨finite, digits rfl⟩
  · rw [if_pos zero] at same
    subst same
    rw [isFinite_rescale]
    constructor
    · rintro ⟨finite, digits⟩
      exact ⟨digits.nonneg, finite, fun whole => absurd whole zero⟩
    · rintro ⟨nonneg, finite, _⟩
      refine ⟨finite, ?_⟩
      rw [Libmpdec.rescale_value _ finite]
      exact fracDigits_truncateAt nonneg _

omit [Settings] in
theorem numeral_of_finite {text : String} (pos : 0 < prec)
    (finite : (mpdSetString text).all Mpd.isFinite = true) : Numeral prec (.string text) := by
  refine ⟨pos.le, fun text' value same conversion => ?_⟩
  obtain rfl := Json.string.inj same
  rw [conversion] at finite
  exact ⟨finite, fun zero => absurd zero pos.ne'⟩

omit [Settings] in
theorem jsonFee_number_iff {conf : MarketConf} (read : jsonFee conf.feePrec json = .ok value) :
    FeeOk conf value ↔ Numeral conf.feePrec json := by
  rw [← jsonDecimal_number_iff (jsonFee_eq_ok.mp read).1]
  constructor
  · intro fee
    exact ⟨fee.finite, fee.digits⟩
  · rintro ⟨finite, digits⟩
    rcases jsonFee_range read finite with ⟨nonneg, below⟩
    exact ⟨finite, nonneg, below, digits⟩

/-! ## Each command -/

theorem UpdateArgs.admissible_iff {a : UpdateArgs} (accepts : AcceptsUpdate params a) :
    a.Admissible ↔ a.ReadsNumbers params := by
  rcases accepts with ⟨user, business, businessId, change, detail, rfl, _, read⟩
  rcases readUpdateArgs_eq_ok.mp read with ⟨_, _, _, _, _, _, _, _, changeRead, _⟩
  simp only [UpdateArgs.ReadsNumbers]
  rw [← jsonDecimal_number_iff changeRead]
  exact ⟨fun ok => ⟨ok.changeFinite, ok.changeDigits⟩, fun both => ⟨both.1, both.2⟩⟩

/-- An admitted limit order is covered by what is available. -/
theorem LimitArgs.covered_of_terms {a : LimitArgs} (ample : Ample e)
    (found : dictFind e.markets a.name = some a.market)
    (terms : LimitTerms a.market.toMarketConf a.amount a.price a.takerFee a.makerFee)
    (fine : a.Fine) {now : Time} {fuel : ℕ} {outcome : Outcome}
    (put : a.put true now fuel e.world = some outcome)
    (admitted : outcome.ret = 0) :
    a.required ≤ e.world.ledger.holds ⟨a.userId, .available, a.market.gives a.side⟩ := by
  rcases marketPutLimitOrder_cases put with ⟨code, codes, rfl⟩ | ⟨covered, _⟩
  · obtain rfl : code = 0 := admitted
    exact absurd codes (by decide)
  · unfold LimitArgs.required
    cases side : a.side with
    | ask =>
        rw [side] at covered
        exact lacks_covers ample.inv.sound terms.amountFinite covered
    | bid =>
        rw [side] at covered
        have exact := limitRequire_value terms (ample.room found) ample.inv.sound (fine side)
          covered
        have product := Libmpdec.mul_finite terms.amountFinite terms.priceFinite
        rw [← exact]
        exact lacks_covers ample.inv.sound product covered

omit [Settings] in
/-- The numbers of a limit order are as they should be precisely when its texts are. -/
theorem LimitArgs.terms_iff {a : LimitArgs}
    (read : readLimitArgs liveTooLong e.markets params = .ok a) :
    LimitTerms a.market.toMarketConf a.amount a.price a.takerFee a.makerFee ↔
      a.ReadsNumbers params := by
  rcases readLimitArgs_eq_ok.mp read with ⟨user, side, amount, price, takerFee, makerFee, rfl, _,
    found, _, amountRead, priceRead, takerRead, makerRead, _⟩
  simp only [LimitArgs.ReadsNumbers]
  rw [← jsonDecimal_number_iff (jsonPositive_eq_ok.mp amountRead).1,
    ← jsonDecimal_number_iff (jsonPositive_eq_ok.mp priceRead).1,
    ← jsonFee_number_iff takerRead, ← jsonFee_number_iff makerRead]
  constructor
  · intro terms
    exact ⟨⟨terms.amountFinite, terms.amountDigits⟩, ⟨terms.priceFinite, terms.priceDigits⟩,
      terms.takerFee, terms.makerFee⟩
  · rintro ⟨⟨amountFinite, amountDigits⟩, ⟨priceFinite, priceDigits⟩, taker, maker⟩
    exact ⟨amountFinite, jsonPositive_pos amountRead amountFinite, amountDigits, priceFinite,
      jsonPositive_pos priceRead priceFinite, priceDigits, taker, maker⟩

theorem LimitArgs.ReadsNumbers.admissible {a : LimitArgs} (numbers : a.ReadsNumbers params)
    (ample : Ample e) (read : readLimitArgs liveTooLong e.markets params = .ok a) (fine : a.Fine) :
    a.Admissible e := by
  rcases readLimitArgs_eq_ok.mp read with ⟨_, _, _, _, _, _, _, _, found, _⟩
  have terms := (a.terms_iff read).mpr numbers
  exact ⟨terms, a.covered_of_terms ample found terms fine⟩

omit [Settings] in
/-- So are those of a market order. -/
theorem MarketArgs.terms_iff {a : MarketArgs}
    (read : readMarketArgs liveTooLong e.markets params = .ok a) :
    MarketTerms a.market.toMarketConf a.amount a.takerFee ↔ a.ReadsNumbers params := by
  rcases readMarketArgs_eq_ok.mp read with
    ⟨user, side, amount, takerFee, rfl, _, found, _, amountRead, takerRead, _⟩
  simp only [MarketArgs.ReadsNumbers]
  rw [← jsonDecimal_number_iff (jsonPositive_eq_ok.mp amountRead).1,
    ← jsonFee_number_iff takerRead]
  constructor
  · intro terms
    exact ⟨⟨terms.amountFinite, terms.amountDigits⟩, terms.takerFee⟩
  · rintro ⟨⟨finite, digits⟩, taker⟩
    exact ⟨finite, jsonPositive_pos amountRead finite, digits, taker⟩

theorem MarketArgs.admissible_iff {a : MarketArgs} (ample : Ample e)
    (read : readMarketArgs liveTooLong e.markets params = .ok a) :
    a.Admissible e ↔ a.ReadsNumbers params := by
  rw [← a.terms_iff read]
  refine ⟨fun ok => ok.terms, fun terms => ⟨terms, ?_⟩⟩
  intro now fuel outcome put admitted
  rcases marketPutMarketOrder_cases put with ⟨code, codes, rfl⟩ | ⟨covered, _⟩
  · obtain rfl : code = 0 := admitted
    exact absurd codes (by decide)
  · exact lacks_covers ample.inv.sound terms.amountFinite covered

/-- A limit bid is for a market whose money has no digits behind the least exponent of the
context. -/
def Command.Fine (e : Engine) : Command → Prop
  | .orderPutLimit params =>
      ∀ a, readLimitArgs liveTooLong e.markets params = .ok a → a.Fine
  | _ => True

omit [Settings] in
instance Command.decidableFine (e : Engine) : (command : Command) → Decidable (command.Fine e)
  | .orderPutLimit _ => decidableForallOk _ _
  | .balanceUpdate .. | .orderPutMarket _ | .orderCancel _ => isTrue trivial

/-- A command that gives the engine nothing but numbers within their bounds has its
decimals written as numbers. -/
theorem Command.Admissible.readsNumbers {command : Command} (ok : command.Admissible e) :
    command.ReadsNumbers e := by
  cases command with
  | balanceUpdate padding params =>
      exact fun a accepts => (a.admissible_iff accepts).mp (ok a accepts)
  | orderPutLimit params => exact fun a read => (a.terms_iff read).mp (ok a read).terms
  | orderPutMarket params => exact fun a read => (a.terms_iff read).mp (ok a read).terms
  | orderCancel params => trivial

/-- With decimals written as numbers it gives the engine nothing else, and puts no
order that is not covered. -/
theorem Command.ReadsNumbers.admissible {command : Command} (numbers : command.ReadsNumbers e)
    (ample : Ample e) (fine : command.Fine e) : command.Admissible e := by
  cases command with
  | balanceUpdate padding params =>
      exact fun a accepts => (a.admissible_iff accepts).mpr (numbers a accepts)
  | orderPutLimit params =>
      exact fun a read => (numbers a read).admissible ample read (fine a read)
  | orderPutMarket params => exact fun a read => (a.admissible_iff ample read).mpr (numbers a read)
  | orderCancel params => trivial

/-! ## Runs -/

/-- A command of numbers is answered. -/
theorem Command.ReadsNumbers.returns {command : Command} (inv : EngineInv e)
    (numbers : command.ReadsNumbers e) (now : Time) :
    ∃ bound, ∀ fuel, bound < fuel → ∃ answer, e.handle now fuel command = some answer := by
  cases command with
  | balanceUpdate padding params => exact ⟨0, fun _ _ => ⟨_, rfl⟩⟩
  | orderCancel params => exact ⟨0, fun _ _ => ⟨_, rfl⟩⟩
  | orderPutLimit params =>
      apply handle_returns inv ?_ now
      intro a read
      have terms := (a.terms_iff read).mpr (numbers a read)
      exact ⟨terms.amountFinite, terms.amountDigits, terms.priceFinite, terms.priceDigits,
        terms.takerFee.finite, terms.takerFee.digits, terms.makerFee.finite, terms.makerFee.digits⟩
  | orderPutMarket params =>
      apply handle_returns inv ?_ now
      intro a read
      have terms := (a.terms_iff read).mpr (numbers a read)
      exact ⟨terms.amountFinite, terms.amountDigits, terms.takerFee.finite, terms.takerFee.digits⟩

/-- No balance call of a bounded run has failed unnoticed. -/
theorem LiveRun.ignored (ample : Ample e₀) (run : LiveRun Command.Bounded e₀ e) :
    e.world.ignored = e₀.world.ignored := by
  induction run with
  | refl => rfl
  | tail before step ih =>
      have middle := LiveRun.ample before ample
      cases step with
      | command bounded run =>
          have kept := handle_kept middle.inv bounded.1 run (handle_ample middle bounded run).exact
          exact kept.ignored.trans ih
      | timer now => exact ih

/-- After any run of commands that leave room, the next command brings numbers
within their bounds, and no order that is not covered, precisely when its
decimals are written as numbers, as long as the context holds the digits of the
money of a limit bid. Nobody has sold or spent more than was available, and every
such command is answered. -/
theorem admission_iff (start : Engine.start = some e₀) (run : LiveRun Command.Bounded e₀ e) :
    (∀ {command : Command}, (command.Admissible e → command.ReadsNumbers e) ∧
        (command.Fine e → command.ReadsNumbers e → command.Admissible e)) ∧
      (∀ key, 0 ≤ e.world.ledger.holds key) ∧ e.world.ignored = 0 ∧
      ∀ {command : Command}, command.ReadsNumbers e → ∀ now, ∃ bound, ∀ fuel, bound < fuel →
        ∃ answer, e.handle now fuel command = some answer := by
  have ample := run.ample (engineStart_ample start)
  refine ⟨?_, ample.inv.sound.holds_nonneg, ?_, ?_⟩
  · intro command
    exact ⟨fun ok => ok.readsNumbers, fun fine numbers => numbers.admissible ample fine⟩
  · rw [run.ignored (engineStart_ample start), (engineStart_inv start).2]
  · intro command numbers now
    exact numbers.returns ample.inv now

end Admission

/-! ## A price that is no number -/

section Small

attribute [local instance] smallSettings Libmpdec.reference

/-- The inner loop of a market bid never ends at a NaN: every product is a NaN,
and compares as more than what is left. -/
theorem lowerAmount_nan (prec : ℤ) (left : Mpd) (fuel : ℕ) :
    ∀ (w : World) (amount : Mpd), lowerAmount prec left .nan fuel w amount = none := by
  induction fuel with
  | zero => exact fun _ _ => rfl
  | succ fuel ih =>
      intro w amount
      have product : mpdMul amount .nan = .nan := by
        change liftExact (· * ·) (· + ·) amount .nan = .nan
        simp [liftExact, Mpd.isFinite]
      have more : mpdCmp (mpdMul amount .nan) left > 0 := by
        rw [product, Libmpdec.cmp_nan_left]
        decide
      simp only [lowerAmount, if_pos more]
      exact ih _ _

/-- So no market bid that comes to such a price is answered. -/
theorem execute_nan {now : Time} {st : LoopState} {node : Ref} {maker : Order}
    (first : skiplistGetIterator (st.market.book .ask) = some node)
    (live : st.world.heap node = some maker) (price : maker.price = .nan)
    (more : mpdCmp st.taker.left mpdZero ≠ 0) (fuel : ℕ) :
    execute true now fuel marketBidRule st = none := by
  unfold execute
  rw [show skiplistGetIterator (st.market.book marketBidRule.side.opposite) = some node from first]
  cases fuel with
  | zero => rfl
  | succ fuel =>
      have stuck : marketBidRule.volume fuel st maker = none := by
        change moneyVolume fuel st maker = none
        unfold moneyVolume
        simp only [price, lowerAmount_nan]
      unfold matchLoop
      simp only [if_neg more, live, stuck]
      rfl

theorem onCmdOrderPutMarket_nan {e : Engine} {params : List Json} {a : MarketArgs} {node : Ref}
    {best : Order} (read : readMarketArgs liveTooLong e.markets params = .ok a)
    (bid : a.side = .bid) (more : mpdCmp a.amount mpdZero ≠ 0)
    (covered : lacks e.world.ledger ⟨a.userId, .available, a.market.gives .bid⟩ a.amount = false)
    (first : skiplistGetIterator (a.market.book .ask) = some node)
    (live : e.world.heap node = some best) (price : best.price = .nan) (now : Time) (fuel : ℕ) :
    onCmdOrderPutMarket now fuel e params = none := by
  have product : mpdMul .nan a.market.minAmount = .nan := by
    change liftExact (· * ·) (· + ·) .nan a.market.minAmount = .nan
    simp [liftExact, Mpd.isFinite]
  have enough : ¬ mpdCmp a.amount (marketRequire e.world a.market .bid best).1 < 0 := by
    change ¬ mpdCmp a.amount (mpdMul best.price a.market.minAmount) < 0
    rw [price, product, Libmpdec.cmp_nan_right]
    decide
  have stuck := @execute_nan now (marketStart now a.market e.world best a.userId .bid a.amount
    a.takerFee a.source) node best first live price more fuel
  unfold onCmdOrderPutMarket marketPutMarketOrder
  rw [read]
  simp only [bid]
  rw [if_neg (Bool.eq_false_iff.mp covered),
    show skiplistGetIterator (a.market.book Side.bid.opposite) = some node from first]
  simp only [live, if_neg enough]
  exact congrArg (Option.map _) (congrArg (Option.map _) stuck)

/-- Two deposits. -/
def fundedEngine : Engine :=
  (smallStart.handleWhile Command.Bounded 0 10
    [deposit 1 "BTC" "5" 1, deposit 2 "CNY" "100" 2]).get (by decide +kernel)

theorem fundedEngine_run : LiveRun Command.Bounded smallStart fundedEngine :=
  Engine.handleWhile_run (Option.some_get _).symm

/-- An ask for one unit at a price that is no number. -/
def nanAsk : List Json :=
  [.integer 1, .string "BTCCNY", .integer 1, .string "1", .string "NaN", .string "0.001",
    .string "0.002", .string "web"]

/-- The engine with that ask. -/
def nanEngine : Engine :=
  ((fundedEngine.handle 0 10 (.orderPutLimit nanAsk)).get (by decide +kernel)).2

/-- A market bid for all of the other user's money. -/
def nanBid : List Json :=
  [.integer 2, .string "BTCCNY", .integer 2, .string "100", .string "0.001", .string "web"]

/-- The ask is admitted, and the bid is never answered. -/
theorem nan_admitted :
    ¬ (∀ {e : Engine}, LiveRun (fun _ _ => True) smallStart e →
        ∀ command : Command, command.Admissible e) ∧
      ¬ ∀ {e : Engine}, LiveRun (fun _ _ => True) smallStart e →
        ∀ (command : Command) (now : Time), ∃ fuel answer,
          e.handle now fuel command = some answer := by
  have run : LiveRun (fun _ _ => True) smallStart fundedEngine :=
    fundedEngine_run.mono fun _ _ _ => trivial
  have placed : LiveRun (fun _ _ => True) smallStart nanEngine :=
    run.tail (.command trivial (Option.some_get _).symm)
  constructor
  · intro admissible
    have price : (match readLimitArgs liveTooLong fundedEngine.markets nanAsk with
        | .ok a => a.price.isFinite
        | .error _ => true) = false := by
      decide +kernel
    cases read : readLimitArgs liveTooLong fundedEngine.markets nanAsk with
    | error _ =>
        rw [read] at price
        cases price
    | ok a =>
        rw [read] at price
        have finite := (admissible run (.orderPutLimit nanAsk) a read).terms.priceFinite
        cases finite.symm.trans price
  · intro returns
    rcases returns placed (.orderPutMarket nanBid) 0 with ⟨fuel, answer, run⟩
    have stuck : (match readMarketArgs liveTooLong nanEngine.markets nanBid with
        | .ok a => decide (a.side = .bid ∧ mpdCmp a.amount mpdZero ≠ 0 ∧
            lacks nanEngine.world.ledger ⟨a.userId, .available, a.market.gives .bid⟩ a.amount =
              false ∧ skiplistGetIterator (a.market.book .ask) = some 0)
        | .error _ => false) = true := by
      decide +kernel
    cases read : readMarketArgs liveTooLong nanEngine.markets nanBid with
    | error _ =>
        rw [read] at stuck
        cases stuck
    | ok a =>
        rw [read] at stuck
        rcases of_decide_eq_true stuck with ⟨bid, more, covered, first⟩
        have resting : ((nanEngine.world.heap 0).map Order.price) = some .nan := by
          decide +kernel
        rcases Option.map_eq_some_iff.mp resting with ⟨best, live, price⟩
        have never := onCmdOrderPutMarket_nan read bid more covered first live price 0 fuel
        rw [Engine.handle, never] at run
        cases run

/-- The numbers of such a command are numbers. -/
theorem putLimit_readsNumbers (user : ℤ) (side : Side) :
    (putLimit user side "1" "10").ReadsNumbers fundedEngine := by
  have precisions : (dictFind fundedEngine.markets "BTCCNY").all (fun m =>
      decide (0 < m.stockPrec ∧ 0 < m.moneyPrec ∧ 0 < m.feePrec)) = true := by
    decide +kernel
  intro a read
  rcases readLimitArgs_eq_ok.mp read with ⟨_, _, _, _, _, _, same, _, found, _⟩
  simp only [List.cons.injEq, Json.string.injEq] at same
  rw [← same.2.1] at found
  rw [found] at precisions
  rcases of_decide_eq_true precisions with ⟨stock, money, fee⟩
  exact ⟨numeral_of_finite stock (by decide +kernel), numeral_of_finite money (by decide +kernel),
    numeral_of_finite fee (by decide +kernel), numeral_of_finite fee (by decide +kernel)⟩

/-- With a price written as a number the same ask is as it should be, and so is a bid. -/
theorem admission_iff_small : (putLimit 1 .ask "1" "10").Admissible fundedEngine ∧
    (putLimit 2 .bid "1" "10").Admissible fundedEngine :=
  ⟨(admission_iff smallStart_eq fundedEngine_run).1.2 (by decide +kernel)
      (putLimit_readsNumbers 1 .ask),
    (admission_iff smallStart_eq fundedEngine_run).1.2 (by decide +kernel)
      (putLimit_readsNumbers 2 .bid)⟩

end Small

end ViabtcServer.MatchEngine
