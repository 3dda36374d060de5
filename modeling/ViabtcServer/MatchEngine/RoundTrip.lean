import ViabtcServer.MatchEngine.Restart

/-!
# The round trip of a slice

When every value is exactly representable in its column, an engine that is
dumped and loaded has the same orders in the same places and the same balances,
and all invariants hold again.
-/

namespace ViabtcServer.MatchEngine

open Decimal Container Sql

/-! ## Orders as data -/

/-- What an order is to others: its decimals read as numbers. The source is left
out, since no table has a column for it. -/
@[ext]
structure OrderData where
  id : ℕ
  type : OrderType
  side : Side
  createTime : Time
  updateTime : Time
  userId : ℕ
  market : String
  price : ℚ
  amount : ℚ
  takerFee : ℚ
  makerFee : ℚ
  left : ℚ
  freeze : ℚ
  dealStock : ℚ
  dealMoney : ℚ
  dealFee : ℚ
  deriving DecidableEq

def Order.data (o : Order) : OrderData where
  id := o.id
  type := o.type
  side := o.side
  createTime := o.createTime
  updateTime := o.updateTime
  userId := o.userId
  market := o.market
  price := o.price.value
  amount := o.amount.value
  takerFee := o.takerFee.value
  makerFee := o.makerFee.value
  left := o.left.value
  freeze := o.freeze.value
  dealStock := o.dealStock.value
  dealMoney := o.dealMoney.value
  dealFee := o.dealFee.value

/-- `Order.priority`, from the data alone. -/
def OrderData.priority (d : OrderData) : ℚ ×ₗ ℕ :=
  toLex (d.side.rank d.price, d.id)

/-- The orders a list refers to. -/
def dataAt (heap : Ref → Option Order) (refs : List Ref) : List OrderData :=
  (refs.filterMap heap).map Order.data

variable {heap heap' : Ref → Option Order} {m m' : Market} {refs : List Ref} {d : OrderData}

theorem mem_dataAt : d ∈ dataAt heap refs ↔ ∃ ref ∈ refs, ∃ o, heap ref = some o ∧ o.data = d := by
  unfold dataAt
  simp only [List.mem_map, List.mem_filterMap]
  constructor
  · rintro ⟨o, ⟨ref, member, live⟩, same⟩
    exact ⟨ref, member, o, live, same⟩
  · rintro ⟨ref, member, o, live, same⟩
    exact ⟨o, ⟨ref, member, live⟩, same⟩

/-- A sorted list of references is a sorted list of orders. -/
theorem dataAt_sorted {β : Type} [LinearOrder β] {keyAt : Ref → β} {key : OrderData → β}
    (sorted : SortedBy keyAt refs)
    (same : ∀ {ref o}, heap ref = some o → keyAt ref = key o.data) :
    SortedBy key (dataAt heap refs) := by
  unfold dataAt SortedBy
  rw [List.pairwise_map, List.pairwise_filterMap]
  apply List.Pairwise.imp _ sorted
  intro x y lt a live b live'
  rwa [same live, same live'] at lt

theorem book_sorted (inv : BookInv m heap) (side : Side) :
    SortedBy OrderData.priority (dataAt heap (m.book side)) :=
  dataAt_sorted (inv.sorted side) priorityAt_of_some

theorem userList_sorted (inv : IndexInv m heap) (user : ℕ) :
    SortedBy (fun d => OrderDual.toDual d.id) (dataAt heap (m.userList user)) :=
  dataAt_sorted (inv.userSorted user) newestAt_of_some

/-- Two markets hold the same orders, wherever they lie. -/
def SameResting (m m' : Market) (heap heap' : Ref → Option Order) : Prop :=
  ∀ d, (∃ ref o, m'.Rests heap' ref o ∧ o.data = d) ↔ ∃ ref o, m.Rests heap ref o ∧ o.data = d

/-- Sorted lists with the same orders are equal. -/
theorem dataAt_eq {β : Type} [LinearOrder β] {key : OrderData → β} {refs' : List Ref}
    (sorted : SortedBy key (dataAt heap refs)) (sorted' : SortedBy key (dataAt heap' refs'))
    (same : ∀ d, d ∈ dataAt heap' refs' ↔ d ∈ dataAt heap refs) :
    dataAt heap' refs' = dataAt heap refs :=
  sorted'.eq_of_perm sorted
    ((List.perm_ext_iff_of_nodup sorted'.nodup sorted.nodup).mpr fun d => same d)

theorem mem_book_data (inv : BookInv m heap) (side : Side) :
    d ∈ dataAt heap (m.book side) ↔ (∃ ref o, m.Rests heap ref o ∧ o.data = d) ∧ d.side = side := by
  rw [mem_dataAt]
  constructor
  · rintro ⟨ref, member, o, live, rfl⟩
    rcases inv.listed member with ⟨o', listed⟩
    obtain rfl := Option.some.inj (listed.found.symm.trans live)
    exact ⟨⟨ref, o', ⟨live, by rwa [listed.side]⟩, rfl⟩, listed.side⟩
  · rintro ⟨⟨ref, o, rests, rfl⟩, rfl⟩
    exact ⟨ref, rests.2, o, rests.1, rfl⟩

theorem mem_userList_data (inv : IndexInv m heap) (user : ℕ) :
    d ∈ dataAt heap (m.userList user) ↔
      (∃ ref o, m.Rests heap ref o ∧ o.data = d) ∧ d.userId = user := by
  rw [mem_dataAt]
  constructor
  · rintro ⟨ref, member, o, live, rfl⟩
    rcases inv.users.mp member with ⟨o', rests, own⟩
    obtain rfl := rests.eq live
    exact ⟨⟨ref, o', rests, rfl⟩, own⟩
  · rintro ⟨⟨ref, o, rests, rfl⟩, own⟩
    exact ⟨ref, inv.users.mpr ⟨o, rests, own⟩, o, rests.1, rfl⟩

/-- The order the id index finds. -/
def Market.lookup (m : Market) (heap : Ref → Option Order) (id : ℕ) : Option OrderData :=
  ((dictFind m.orders id).bind heap).map Order.data

theorem lookup_eq_some (inv : IndexInv m heap) {id : ℕ} :
    m.lookup heap id = some d ↔ (∃ ref o, m.Rests heap ref o ∧ o.data = d) ∧ d.id = id := by
  unfold Market.lookup
  simp only [Option.map_eq_some_iff, Option.bind_eq_some_iff]
  constructor
  · rintro ⟨o, ⟨ref, found, live⟩, rfl⟩
    rcases inv.orders.mp found with ⟨o', rests, own⟩
    obtain rfl := rests.eq live
    exact ⟨⟨ref, o', rests, rfl⟩, own⟩
  · rintro ⟨⟨ref, o, rests, rfl⟩, own⟩
    exact ⟨o, ⟨ref, inv.orders.mpr ⟨o, rests, own⟩, rests.1⟩, rfl⟩

/-- The same orders in the same places. -/
structure SameIndexes (m m' : Market) (heap heap' : Ref → Option Order) : Prop where
  conf : m'.toMarketConf = m.toMarketConf
  book : ∀ side, dataAt heap' (m'.book side) = dataAt heap (m.book side)
  userList : ∀ user, dataAt heap' (m'.userList user) = dataAt heap (m.userList user)
  lookup : ∀ id, m'.lookup heap' id = m.lookup heap id

theorem SameResting.indexes (same : SameResting m m' heap heap')
    (conf : m'.toMarketConf = m.toMarketConf) (inv : IndexInv m heap) (inv' : IndexInv m' heap') :
    SameIndexes m m' heap heap' where
  conf := conf
  book side := by
    apply dataAt_eq (book_sorted inv.toBookInv side) (book_sorted inv'.toBookInv side)
    intro d
    rw [mem_book_data inv.toBookInv, mem_book_data inv'.toBookInv, same]
  userList user := by
    apply dataAt_eq (userList_sorted inv user) (userList_sorted inv' user)
    intro d
    rw [mem_userList_data inv, mem_userList_data inv', same]
  lookup id := by
    apply Option.ext
    intro d
    rw [lookup_eq_some inv, lookup_eq_some inv', same]

/-- What a user's orders freeze, from the data alone. -/
theorem frozen_eq_data (m : Market) (heap : Ref → Option Order) (user : ℕ) (asset : String) :
    m.frozen heap user asset = ((dataAt heap (m.userList user)).map fun d =>
      if m.toMarketConf.gives d.side = asset then d.freeze else 0).sum := by
  unfold Market.frozen dataAt
  induction m.userList user with
  | nil => rfl
  | cons ref rest ih =>
      rw [List.map_cons, List.sum_cons, ih]
      cases live : heap ref with
      | none => simp [live]
      | some o => simp [live, Order.freezes, Order.data]

theorem SameIndexes.frozen (same : SameIndexes m m' heap heap') (user : ℕ) (asset : String) :
    m'.frozen heap' user asset = m.frozen heap user asset := by
  rw [frozen_eq_data, frozen_eq_data, same.userList, same.conf]

/-! ## Values that fit -/

/-- Every decimal of the order is a number its column holds as it is. -/
structure Order.Fits (o : Order) : Prop where
  price : Decimal.Fits orderScale o.price.value
  amount : Decimal.Fits orderScale o.amount.value
  takerFee : Decimal.Fits feeScale o.takerFee.value
  makerFee : Decimal.Fits feeScale o.makerFee.value
  left : Decimal.Fits orderScale o.left.value
  freeze : Decimal.Fits orderScale o.freeze.value
  dealStock : Decimal.Fits orderScale o.dealStock.value
  dealMoney : Decimal.Fits dealMoneyScale o.dealMoney.value
  dealFee : Decimal.Fits dealFeeScale o.dealFee.value

instance (o : Order) : Decidable o.Fits :=
  decidable_of_iff
    (Decimal.Fits orderScale o.price.value ∧ Decimal.Fits orderScale o.amount.value ∧
      Decimal.Fits feeScale o.takerFee.value ∧ Decimal.Fits feeScale o.makerFee.value ∧
      Decimal.Fits orderScale o.left.value ∧ Decimal.Fits orderScale o.freeze.value ∧
      Decimal.Fits orderScale o.dealStock.value ∧ Decimal.Fits dealMoneyScale o.dealMoney.value ∧
      Decimal.Fits dealFeeScale o.dealFee.value)
    ⟨fun ⟨p, a, t, k, l, f, s, m, e⟩ => ⟨p, a, t, k, l, f, s, m, e⟩,
      fun ⟨p, a, t, k, l, f, s, m, e⟩ => ⟨p, a, t, k, l, f, s, m, e⟩⟩

/-- What the columns have to hold for the order to come back: the frozen amount
is computed anew, so that its own column does not count. -/
structure Order.Whole (o : Order) : Prop where
  price : Decimal.Fits orderScale o.price.value
  amount : Decimal.Fits orderScale o.amount.value
  takerFee : Decimal.Fits feeScale o.takerFee.value
  makerFee : Decimal.Fits feeScale o.makerFee.value
  left : Decimal.Fits orderScale o.left.value
  freeze : SigDigits mpdCtx o.freeze.value
  dealStock : Decimal.Fits orderScale o.dealStock.value
  dealMoney : Decimal.Fits dealMoneyScale o.dealMoney.value
  dealFee : Decimal.Fits dealFeeScale o.dealFee.value

theorem Order.Fits.whole {o : Order} (fits : o.Fits) : o.Whole :=
  ⟨fits.price, fits.amount, fits.takerFee, fits.makerFee, fits.left,
    fits.freeze.sigDigits (by decide), fits.dealStock, fits.dealMoney, fits.dealFee⟩

/-- Every value a dump of the engine writes fits its column. -/
structure Engine.Fits (e : Engine) : Prop where
  orders : ∀ {name o}, e.Resting name o → o.Fits
  balances : ∀ {key entry}, dictFind e.world.ledger.balances key = some entry →
    Decimal.Fits balanceScale entry.value

/-- So far as it counts. -/
structure Engine.Whole (e : Engine) : Prop where
  orders : ∀ {name o}, e.Resting name o → o.Whole
  balances : ∀ {key entry}, dictFind e.world.ledger.balances key = some entry →
    Decimal.Fits balanceScale entry.value

theorem Engine.Fits.whole {e : Engine} (fits : e.Fits) : e.Whole :=
  ⟨fun resting => (fits.orders resting).whole, fits.balances⟩

variable [Libmpdec] {conf : MarketConf} {o o' : Order}

/-- Of such an order all is read back, and its frozen amount computed anew is
the same. -/
theorem Order.Whole.reloads (whole : o.Whole) (resting : o.Resting conf)
    (reloads : o.Reloads conf o') : o'.data = o.data ∧ o'.Resting conf := by
  rcases reloads with ⟨row, stored, rfl⟩
  have of := orderRow_of stored
  have price := columnDecimal_stored of.price whole.price resting.priceDigits.onGrid
  have amount := columnDecimal_stored of.amount whole.amount resting.amountDigits.onGrid
  have takerFee := columnDecimal_stored of.takerFee whole.takerFee resting.takerFee.digits.onGrid
  have makerFee := columnDecimal_stored of.makerFee whole.makerFee resting.makerFee.digits.onGrid
  have left := columnDecimal_stored of.left whole.left resting.leftDigits.onGrid
  have dealStock := columnDecimal_whole of.dealStock whole.dealStock
  have dealMoney := columnDecimal_whole of.dealMoney whole.dealMoney
  have dealFee := columnDecimal_whole of.dealFee whole.dealFee
  have frozen : (row.load conf).frozen = o.frozen := by
    unfold Order.frozen
    rw [show (row.load conf).side = o.side from of.side]
    cases o.side with
    | ask => exact left
    | bid => exact congrArg₂ (· * ·) price left
  have freeze : (freezeAmount (row.load conf)).isFinite ∧
      (freezeAmount (row.load conf)).value = o.freeze.value := by
    have digits : SigDigits mpdCtx (row.load conf).frozen := by
      rw [frozen, ← resting.freeze]
      exact whole.freeze
    rw [resting.freeze, ← frozen]
    unfold freezeAmount Order.frozen
    unfold Order.frozen at digits
    cases side : (row.load conf).side with
    | ask => exact ⟨columnDecimal_isFinite, rfl⟩
    | bid =>
        rw [side] at digits
        exact ⟨Libmpdec.mul_finite columnDecimal_isFinite columnDecimal_isFinite,
          (mpdMul_exact_iff columnDecimal_isFinite columnDecimal_isFinite).mpr digits⟩
  constructor
  · exact OrderData.ext of.id of.type of.side of.createTime of.updateTime of.userId of.market price
      amount takerFee makerFee left freeze.2 dealStock dealMoney dealFee
  · have feeOk {fee : Mpd} {units : ℤ}
        (same : (columnDecimal feeScale conf.feePrec units).value = fee.value)
        (ok : FeeOk conf fee) : FeeOk conf (columnDecimal feeScale conf.feePrec units) :=
      ⟨columnDecimal_isFinite, same ▸ ok.nonneg, same ▸ ok.lt_one, same ▸ ok.digits⟩
    exact
      { limit := of.type.trans resting.limit
        market := of.market.trans resting.market
        priceFinite := columnDecimal_isFinite
        pricePos := price ▸ resting.pricePos
        priceDigits := price ▸ resting.priceDigits
        amountFinite := columnDecimal_isFinite
        amountDigits := amount ▸ resting.amountDigits
        leftFinite := columnDecimal_isFinite
        leftPos := left ▸ resting.leftPos
        left_le := by
          change (columnDecimal _ _ _).value ≤ (columnDecimal _ _ _).value
          rw [left, amount]
          exact resting.left_le
        leftDigits := left ▸ resting.leftDigits
        takerFee := feeOk takerFee resting.takerFee
        makerFee := feeOk makerFee resting.makerFee
        freezeFinite := freeze.1
        freeze := freeze.2.trans (resting.freeze.trans frozen.symm) }

/-! ## Engines that come back -/

variable [Settings] {e₀ e e' : Engine} {name : String}

/-- All that the tables keep is as it was. -/
structure Restored (e e' : Engine) : Prop where
  configured : ∀ name, (dictFind e'.markets name).isSome ↔ (dictFind e.markets name).isSome
  markets : ∀ {name m m'}, dictFind e.markets name = some m → dictFind e'.markets name = some m' →
    SameIndexes m m' e.world.heap e'.world.heap
  balances : ∀ key, e'.world.ledger.holds key = e.world.ledger.holds key

theorem LoadsSlice.sameConf (loads : LoadsSlice e e') (found : dictFind e.markets name = some m)
    (found' : dictFind e'.markets name = some m') : m'.toMarketConf = m.toMarketConf := by
  have conf := loads.confs name
  rw [found, found', Option.map_some, Option.map_some] at conf
  exact Option.some.inj conf

theorem LoadsSlice.found (loads : LoadsSlice e e') (found' : dictFind e'.markets name = some m') :
    ∃ m, dictFind e.markets name = some m := by
  have conf := loads.confs name
  rw [found', Option.map_some] at conf
  rcases Option.map_eq_some_iff.mp conf.symm with ⟨m, found, _⟩
  exact ⟨m, found⟩

/-- The loaded orders are the dumped ones. -/
theorem LoadsSlice.reloaded (loads : LoadsSlice e e') (inv : EngineInv e) (whole : e.Whole)
    (found : dictFind e.markets name = some m) :
    (∀ {o'}, e'.Resting name o' → ∃ o, e.Resting name o ∧ o'.data = o.data ∧
      o'.Resting m.toMarketConf) ∧
    ∀ {o}, e.Resting name o → ∃ o', e'.Resting name o' ∧ o'.data = o.data := by
  have terms {o : Order} (resting : e.Resting name o) : o.Resting m.toMarketConf := by
    rcases resting with ⟨n, ref, known, rests⟩
    rw [found] at known
    obtain rfl := Option.some.inj known
    exact (inv.market found).resting rests
  constructor
  · intro o' resting'
    rcases (loads.resting found).mp resting' with ⟨o, resting, reloads⟩
    have same := (whole.orders resting).reloads (terms resting) reloads
    exact ⟨o, resting, same⟩
  · intro o resting
    rcases loads.stored resting with ⟨row, stored⟩
    have reloads : o.Reloads m.toMarketConf (row.load m.toMarketConf).placed := ⟨row, stored, rfl⟩
    have same := (whole.orders resting).reloads (terms resting) reloads
    exact ⟨_, (loads.resting found).mpr ⟨o, resting, reloads⟩, same.1⟩

theorem LoadsSlice.sameResting (loads : LoadsSlice e e') (inv : EngineInv e) (whole : e.Whole)
    (found : dictFind e.markets name = some m) (found' : dictFind e'.markets name = some m') :
    SameResting m m' e.world.heap e'.world.heap := by
  rcases loads.reloaded inv whole found with ⟨back, forward⟩
  intro d
  constructor
  · rintro ⟨ref, o', rests, rfl⟩
    rcases back ⟨m', ref, found', rests⟩ with ⟨o, ⟨n, ref, known, before⟩, same, _⟩
    rw [found] at known
    obtain rfl := Option.some.inj known
    exact ⟨ref, o, before, same.symm⟩
  · rintro ⟨ref, o, rests, rfl⟩
    rcases forward ⟨m, ref, found, rests⟩ with ⟨o', ⟨n, ref, known, after⟩, same⟩
    rw [found'] at known
    obtain rfl := Option.some.inj known
    exact ⟨ref, o', after, same⟩

/-- A balance that fits and has the digits of its asset is set to what it was. -/
theorem LoadsSlice.balances (loads : LoadsSlice e e') (inv : EngineInv e) (whole : e.Whole)
    (key : BalanceKey) : e'.world.ledger.holds key = e.world.ledger.holds key := by
  cases found : dictFind e.world.ledger.balances key with
  | none => rw [loads.absent found, Ledger.holds_of_none found]
  | some entry =>
      rcases loads.present found with ⟨units, stored, held⟩
      rcases (inv.sound key entry found).digits with ⟨type, known, digits⟩
      rw [held, readDecimal_stored stored (whole.balances found), Ledger.holds_of_some found,
        assetPrec_of_some known]
      exact digits.truncateAt_eq

theorem LoadsSlice.restored (loads : LoadsSlice e e') (inv : EngineInv e) (whole : e.Whole) :
    Restored e e' where
  configured name := by
    have conf := congrArg Option.isSome (loads.confs name)
    rw [Option.isSome_map, Option.isSome_map] at conf
    rw [conf]
  markets found found' := (loads.sameResting inv whole found found').indexes
    (loads.sameConf found found') (inv.market found).index (loads.index found')
  balances := loads.balances inv whole

/-- The invariants hold again. -/
theorem LoadsSlice.inv (loads : LoadsSlice e e') (inv : EngineInv e) (whole : e.Whole)
    (orderId : e.world.orderIdStart ≤ e'.world.orderIdStart) : EngineInv e' where
  named {name m'} found' := by
    rcases loads.found found' with ⟨m, found⟩
    rw [← inv.named found]
    exact congrArg MarketConf.name (loads.sameConf found found')
  market {name m'} found' := by
    rcases loads.found found' with ⟨m, found⟩
    have conf := loads.sameConf found found'
    rcases loads.reloaded inv whole found with ⟨back, _⟩
    have origin {ref : Ref} {o' : Order} (rests : m'.Rests e'.world.heap ref o') :
        ∃ ref₀ o, m.Rests e.world.heap ref₀ o ∧ o'.data = o.data ∧ o'.Resting m.toMarketConf := by
      rcases back ⟨m', ref, found', rests⟩ with ⟨o, ⟨n, ref₀, known, before⟩, same⟩
      rw [found] at known
      obtain rfl := Option.some.inj known
      exact ⟨ref₀, o, before, same⟩
    constructor
    · rw [conf]
      exact (inv.market found).ok
    · exact loads.index found'
    · intro ref o' rests
      rw [conf]
      rcases origin rests with ⟨_, _, _, _, resting⟩
      exact resting
    · intro ref o' rests
      rcases origin rests with ⟨_, o, before, same, _⟩
      constructor
      · exact loads.below found' rests
      · rw [show o'.id = o.id from congrArg OrderData.id same]
        exact ((inv.market found).below before).2.trans orderId
    · intro x y a' b' ra rb sa sb
      rcases origin ra with ⟨_, a, before, same, _⟩
      rcases origin rb with ⟨_, b, before', same', _⟩
      rw [show a'.price.value = a.price.value from congrArg OrderData.price same,
        show b'.price.value = b.price.value from congrArg OrderData.price same']
      exact (inv.market found).uncrossed before before'
        ((congrArg OrderData.side same).symm.trans sa)
        ((congrArg OrderData.side same').symm.trans sb)
  apart {name₁ name₂ m₁ m₂ x₁ x₂ o₁ o₂} found₁ found₂ rests₁ rests₂ same := by
    rcases loads.found found₁ with ⟨n₁, known₁⟩
    rcases loads.found found₂ with ⟨n₂, known₂⟩
    rcases (loads.reloaded inv whole known₁).1 ⟨m₁, x₁, found₁, rests₁⟩ with ⟨p₁, was₁, data₁, _⟩
    rcases (loads.reloaded inv whole known₂).1 ⟨m₂, x₂, found₂, rests₂⟩ with ⟨p₂, was₂, data₂, _⟩
    have market₁ := inv.resting_market was₁
    have market₂ := inv.resting_market was₂
    rcases was₁ with ⟨k₁, y₁, at₁, before₁⟩
    rcases was₂ with ⟨k₂, y₂, at₂, before₂⟩
    have ids : p₁.id = p₂.id := by
      rw [← show o₁.id = p₁.id from congrArg OrderData.id data₁, same]
      exact congrArg OrderData.id data₂
    obtain rfl := inv.apart at₁ at₂ before₁ before₂ ids
    obtain rfl := Option.some.inj (before₁.1.symm.trans before₂.1)
    obtain rfl := market₁.symm.trans market₂
    rw [found₁] at found₂
    obtain rfl := Option.some.inj found₂
    exact (loads.index found₁).unique rests₁ rests₂ same
  sound := loads.sound
  backed user asset := by
    rw [loads.balances inv whole, inv.backed]
    apply dictSum_congr_terms
    intro name
    cases found : dictFind e.markets name with
    | none =>
        have conf := loads.confs name
        rw [found, Option.map_none, Option.map_eq_none_iff] at conf
        rw [conf]
        rfl
    | some m =>
        have conf := loads.confs name
        rw [found, Option.map_some] at conf
        rcases Option.map_eq_some_iff.mp conf with ⟨m', found', _⟩
        rw [found', Option.map_some, Option.map_some]
        exact congrArg some
          (((loads.restored inv whole).markets found found').frozen user asset).symm

/-- Nothing was rounded while the orders were put back. -/
theorem LoadsSlice.stays_exact (loads : LoadsSlice e e') (inv : EngineInv e) (whole : e.Whole) :
    e'.world.ledger.exact = true := by
  apply loads.exact
  rintro name m o o' found ⟨n, ref, known, rests⟩ reloads
  rw [found] at known
  obtain rfl := Option.some.inj known
  have resting := (inv.market found).resting rests
  have ok := whole.orders ⟨_, ref, found, rests⟩
  rcases ok.reloads resting reloads with ⟨same, resting'⟩
  rw [← resting'.freeze, show o'.freeze.value = o.freeze.value from congrArg OrderData.freeze same]
  exact ok.freeze

theorem LoadsSlice.rooted (loads : LoadsSlice e e') (rooted : Rooted e₀ e) :
    Rooted e₀ e' where
  confs name := (loads.confs name).trans (rooted.confs name)
  positive {name m' ref o'} found' rests' := by
    rcases loads.found found' with ⟨m, found⟩
    rcases (loads.resting found).mp ⟨m', ref, found', rests'⟩ with
      ⟨o, ⟨n, ref₀, known, rests⟩, row, stored, rfl⟩
    change 0 < row.id
    rw [(orderRow_of stored).id]
    exact rooted.positive known rests

end ViabtcServer.MatchEngine
