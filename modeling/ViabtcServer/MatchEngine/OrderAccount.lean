import ViabtcServer.MatchEngine.LimitOrder

/-!
# The account of an order

An order records the stock, the money and the fees of its fills. What it records
is what its fills say, and what they say is what its user was credited with.
-/

namespace ViabtcServer.MatchEngine

open Decimal Container

/-! ## The fills of an order -/

/-- The order on a side of a fill. -/
def Fill.order (f : Fill) : Side → ℕ
  | .ask => f.askId
  | .bid => f.bidId

/-- The fills of the order among `fills`. -/
def Order.fillsIn (o : Order) (fills : List Fill) : List Fill :=
  fills.filter fun f => f.order o.side = o.id

/-- The rate of the order's fee for a fill, as taker or as maker. -/
def Order.rate (o : Order) (f : Fill) : Mpd :=
  if f.takerSide = o.side then o.takerFee else o.makerFee

/-- The fee of a fill: a part of what the order receives. -/
def Order.charge (o : Order) (f : Fill) : ℚ :=
  match o.side with
  | .ask => f.price.value * f.amount.value * (o.rate f).value
  | .bid => f.amount.value * (o.rate f).value

/-- What a settlement adds to the available balance of the party of `side`. -/
def Fill.credit [Settings] (conf : MarketConf) (f : Fill) (side : Side) : ℚ :=
  (f.receives side).value - raiseAt (-assetPrec (conf.gets side)) (f.fee side).value

/-- The order agrees with its fills and with what they credit its user with. -/
structure Order.Accounted [Settings] (conf : MarketConf) (fills : List Fill) (o : Order) :
    Prop where
  amount : o.amount.value = o.left.value + o.dealStock.value
  owner : ∀ f ∈ o.fillsIn fills, f.user o.side = o.userId
  dealStock : o.dealStock.value = ((o.fillsIn fills).map fun f => f.amount.value).sum
  dealMoney : o.dealMoney.value =
    ((o.fillsIn fills).map fun f => f.price.value * f.amount.value).sum
  dealFee : o.dealFee.value = ((o.fillsIn fills).map o.charge).sum
  ask : o.side = .ask → ∃ short : Fill → ℚ,
    ((o.fillsIn fills).map fun f => f.credit conf .ask).sum =
        o.dealMoney.value - o.dealFee.value - ((o.fillsIn fills).map short).sum ∧
      ∀ f ∈ o.fillsIn fills, 0 ≤ short f ∧ short f < 10 ^ (-assetPrec conf.money) ∧
        (FracDigits (assetPrec conf.money) (o.charge f) → short f = 0)
  bid : o.side = .bid →
    ((o.fillsIn fills).map fun f => f.credit conf .bid).sum =
        o.dealStock.value - o.dealFee.value ∧
      ((o.fillsIn fills).map fun f => (f.pays .bid).value).sum ≤
        o.price.value * o.dealStock.value

section Account

variable [Settings] {conf : MarketConf} {fills new : List Fill} {f : Fill} {o : Order}

/-- A settlement takes what is paid and adds the credit. -/
theorem settlement_credit (conf : MarketConf) (userId : ℕ) (side : Side) (source : BalanceType)
    (f : Fill) : settlement conf userId side source f =
      Finsupp.single ⟨userId, source, conf.gives side⟩ (-(f.pays side).value) +
        Finsupp.single ⟨userId, .available, conf.gets side⟩ (f.credit conf side) :=
  rfl

/-! ## One fill of an order -/

/-- What a fill says about one of its two orders. -/
structure Order.Entry (conf : MarketConf) (o : Order) (f : Fill) : Prop where
  ok : f.Ok conf
  owner : f.user o.side = o.userId
  deal : f.deal.value = f.price.value * f.amount.value
  fee : (f.fee o.side).value = o.charge f
  price : o.side = .bid → f.price.value ≤ o.price.value

/-- The order has recorded its fills. -/
structure Order.Booked (conf : MarketConf) (fills : List Fill) (o : Order) : Prop where
  amount : o.amount.value = o.left.value + o.dealStock.value
  dealStock : o.dealStock.value = ((o.fillsIn fills).map fun f => f.amount.value).sum
  dealMoney : o.dealMoney.value = ((o.fillsIn fills).map fun f => f.deal.value).sum
  dealFee : o.dealFee.value = ((o.fillsIn fills).map fun f => (f.fee o.side).value).sum
  entries : ∀ f ∈ o.fillsIn fills, o.Entry conf f

omit [Settings] in
theorem Order.fillsIn_append (o : Order) (fills new : List Fill) :
    o.fillsIn (fills ++ new) = o.fillsIn fills ++ o.fillsIn new :=
  List.filter_append fills new

omit [Settings] in
theorem Order.fillsIn_own (own : f.order o.side = o.id) : o.fillsIn [f] = [f] := by
  simp [Order.fillsIn, own]

omit [Settings] in
theorem Order.fillsIn_other (other : ∀ f ∈ fills, f.order o.side ≠ o.id) :
    o.fillsIn fills = [] := by
  apply List.filter_eq_nil_iff.mpr
  intro f mem
  rw [decide_eq_true_eq]
  exact other f mem

/-- The fills of others leave the account alone. -/
theorem Order.Booked.beside (booked : o.Booked conf fills)
    (other : ∀ f ∈ new, f.order o.side ≠ o.id) : o.Booked conf (fills ++ new) := by
  have same : o.fillsIn (fills ++ new) = o.fillsIn fills := by
    rw [o.fillsIn_append, Order.fillsIn_other other, List.append_nil]
  constructor
  · exact booked.amount
  · rw [same]
    exact booked.dealStock
  · rw [same]
    exact booked.dealMoney
  · rw [same]
    exact booked.dealFee
  · rw [same]
    exact booked.entries

/-- The account of an order that has no fills yet. -/
theorem Order.Booked.of_new (full : o.left = o.amount) (stock : o.dealStock = mpdZero)
    (money : o.dealMoney = mpdZero) (fee : o.dealFee = mpdZero)
    (unknown : ∀ f ∈ fills, f.order o.side ≠ o.id) : o.Booked conf fills := by
  have none : o.fillsIn fills = [] := Order.fillsIn_other unknown
  constructor
  · rw [full, stock, mpdZero_value, add_zero]
  · rw [none, stock, mpdZero_value]
    rfl
  · rw [none, money, mpdZero_value]
    rfl
  · rw [none, fee, mpdZero_value]
    rfl
  · rw [none]
    exact fun f mem => absurd mem List.not_mem_nil

/-- Freezing is not part of the account. -/
theorem Order.Booked.freeze (booked : o.Booked conf fills) (freeze : Mpd) :
    Order.Booked conf fills { o with freeze := freeze } :=
  ⟨booked.amount, booked.dealStock, booked.dealMoney, booked.dealFee,
    fun f mem => ⟨(booked.entries f mem).ok, (booked.entries f mem).owner,
      (booked.entries f mem).deal, (booked.entries f mem).fee, (booked.entries f mem).price⟩⟩

variable [Libmpdec] {side : Side} {spent : Mpd} {now : Time} {w : World} {rates : Mpd × Mpd}

omit [Settings] in
/-- What `Order.record` computes while nothing rounds. -/
theorem World.observeRecord_sums
    (exact : (w.observeRecord o side f spent).ledger.exact = true) :
    (mpdSub o.left spent).value = o.left.value - spent.value ∧
      (mpdAdd o.dealStock f.amount).value = o.dealStock.value + f.amount.value ∧
      (mpdAdd o.dealMoney f.deal).value = o.dealMoney.value + f.deal.value ∧
      (mpdAdd o.dealFee (f.fee side)).value = o.dealFee.value + (f.fee side).value := by
  simp only [World.observeRecord, World.observe_ledger, Ledger.exact_observe] at exact
  exact ⟨exact.1.1.1.2, exact.1.1.2, exact.1.2, exact.2⟩

omit [Libmpdec] [Settings] in
/-- The three products of a fill while nothing rounds. -/
theorem World.observeFill_products (exact : (w.observeFill f rates).ledger.exact = true) :
    f.deal.value = f.price.value * f.amount.value ∧
      f.askFee.value = f.deal.value * rates.1.value ∧
      f.bidFee.value = f.amount.value * rates.2.value := by
  simp only [World.observeFill, World.observe_ledger, Ledger.exact_observe] at exact
  exact ⟨exact.1.1.2, exact.1.2, exact.2⟩

/-- Recording a fill keeps the account. -/
theorem Order.Booked.record (booked : o.Booked conf fills) (entry : o.Entry conf f)
    (own : f.order o.side = o.id) (spends : spent.value = f.amount.value)
    (exact : (w.observeRecord o o.side f spent).ledger.exact = true) (now : Time) :
    (o.record now o.side f spent).Booked conf (fills ++ [f]) := by
  rcases World.observeRecord_sums exact with ⟨left, stock, money, fee⟩
  have grows : o.fillsIn (fills ++ [f]) = o.fillsIn fills ++ [f] := by
    rw [o.fillsIn_append, Order.fillsIn_own own]
  have mine : (o.record now o.side f spent).fillsIn (fills ++ [f]) = o.fillsIn fills ++ [f] := grows
  constructor
  · change o.amount.value = (mpdSub o.left spent).value + (mpdAdd o.dealStock f.amount).value
    rw [left, stock, spends, booked.amount]
    ring
  · rw [mine, List.map_append, List.sum_append, ← booked.dealStock, List.map_singleton,
      List.sum_singleton]
    exact stock
  · rw [mine, List.map_append, List.sum_append, ← booked.dealMoney, List.map_singleton,
      List.sum_singleton]
    exact money
  · rw [mine, List.map_append, List.sum_append, List.map_singleton, List.sum_singleton]
    change (mpdAdd o.dealFee (f.fee o.side)).value =
      ((o.fillsIn fills).map fun f => (f.fee o.side).value).sum + (f.fee o.side).value
    rw [fee, booked.dealFee]
  · rw [mine]
    intro g mem
    rcases List.mem_append.mp mem with before | new
    · have old := booked.entries g before
      exact ⟨old.ok, old.owner, old.deal, old.fee, old.price⟩
    · obtain rfl := List.mem_singleton.mp new
      exact ⟨entry.ok, entry.owner, entry.deal, entry.fee, entry.price⟩

end Account

/-! ## Credits -/

section Credit

variable [Settings] {conf : MarketConf} {fills : List Fill} {f : Fill} {o : Order}

/-- What rounding up adds to the fee of an ask. -/
def Order.short (conf : MarketConf) (o : Order) (f : Fill) : ℚ :=
  raiseAt (-assetPrec conf.money) (o.charge f) - o.charge f

theorem Order.Entry.ask_credit (entry : o.Entry conf f) (ask : o.side = .ask) :
    f.credit conf .ask + (o.charge f + o.short conf f) = f.deal.value := by
  have fee := entry.fee
  rw [ask] at fee
  change f.deal.value - raiseAt (-assetPrec conf.money) (f.fee .ask).value +
    (o.charge f + (raiseAt (-assetPrec conf.money) (o.charge f) - o.charge f)) = f.deal.value
  rw [fee]
  ring

theorem Order.Entry.bid_credit (entry : o.Entry conf f) (bid : o.side = .bid) :
    f.credit conf .bid + o.charge f = f.amount.value := by
  have fee := entry.fee
  rw [bid] at fee
  change f.amount.value - raiseAt (-assetPrec conf.stock) f.bidFee.value + o.charge f = _
  rw [entry.ok.bidFeeDigits.raiseAt_eq, ← fee]
  exact sub_add_cancel _ _

omit [Settings] in
/-- Sums of equal terms are equal. -/
theorem sum_fills_congr {value value' : Fill → ℚ} (same : ∀ f ∈ fills, value f = value' f) :
    (fills.map value).sum = (fills.map value').sum :=
  congrArg List.sum (List.map_congr_left same)

/-- An order that has recorded its fills agrees with them and their credits. -/
theorem Order.Booked.accounted (booked : o.Booked conf fills) : o.Accounted conf fills := by
  have money : o.dealMoney.value =
      ((o.fillsIn fills).map fun f => f.price.value * f.amount.value).sum :=
    booked.dealMoney.trans (sum_fills_congr fun f mem => (booked.entries f mem).deal)
  have fee : o.dealFee.value = ((o.fillsIn fills).map o.charge).sum :=
    booked.dealFee.trans (sum_fills_congr fun f mem => (booked.entries f mem).fee)
  refine ⟨booked.amount, fun f mem => (booked.entries f mem).owner, booked.dealStock, money, fee,
    ?_, ?_⟩
  · intro ask
    refine ⟨o.short conf, ?_, ?_⟩
    · have whole := sum_fills_congr fun f mem => (booked.entries f mem).ask_credit ask
      rw [List.sum_map_add, List.sum_map_add, ← booked.dealMoney, ← fee] at whole
      linarith
    · intro f _
      have below := le_raiseAt (-assetPrec conf.money) (o.charge f)
      have above := raiseAt_lt_add (-assetPrec conf.money) (o.charge f)
      unfold Order.short
      refine ⟨sub_nonneg.mpr below, by linarith, ?_⟩
      intro digits
      rw [digits.raiseAt_eq, sub_self]
  · intro bid
    constructor
    · have whole := sum_fills_congr fun f mem => (booked.entries f mem).bid_credit bid
      rw [List.sum_map_add, ← booked.dealStock, ← fee] at whole
      linarith
    · rw [booked.dealStock, ← List.sum_map_mul_left]
      apply List.sum_le_sum
      intro f mem
      have entry := booked.entries f mem
      have pos : 0 < f.amount.value := entry.ok.paysPos .ask
      calc
        (f.pays .bid).value = f.price.value * f.amount.value := entry.deal
        _ ≤ o.price.value * f.amount.value :=
          mul_le_mul_of_nonneg_right (entry.price bid) pos.le

end Credit

end ViabtcServer.MatchEngine
