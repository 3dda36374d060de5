import ViabtcServer.MatchEngine.Lifetime

/-!
# What a slice loses

The columns of the slice tables have fixed scales, whatever the precisions of
the assets and markets are, and there is no column for the source of an order.
An engine survives a dump and a load precisely when all its values fit and none
of its open orders has a source.
-/

namespace ViabtcServer.MatchEngine

open Decimal Container Sql

/-- Everything about the order has room in the table, and it has no source. -/
structure Order.Lossless (o : Order) : Prop where
  id : o.id < 2 ^ 64
  userId : o.userId < 2 ^ 32
  market : o.market.length ≤ nameColumn
  dealStock : o.dealStock.isFinite
  dealMoney : o.dealMoney.isFinite
  dealFee : o.dealFee.isFinite
  freeze : (storeDecimal orderScale o.freeze).isSome
  whole : o.Whole
  source : o.source = none

/-- Everything about the balance has room in the table. -/
structure BalanceKey.Lossless (key : BalanceKey) (entry : Mpd) : Prop where
  userId : key.userId < 2 ^ 32
  asset : key.asset.length ≤ nameColumn
  fits : Decimal.Fits balanceScale entry.value

/-- So it is with all open orders and balances, and no order is dumped twice. -/
structure Engine.Lossless [Settings] (e : Engine) : Prop where
  orders : ∀ {name o}, e.Resting name o → o.Lossless
  balances : ∀ {key entry}, dictFind e.world.ledger.balances key = some entry → key.Lossless entry
  once : (e.slice.orders.map Order.id).Nodup

section Loss

variable [Libmpdec] [Settings] {e₀ e e' : Engine} {name : String} {m m' : Market} {o o' : Order}
  {conf : MarketConf} {d : SliceDb} {row : SliceRow}

/-- Loading gives back everything commands still use, the sources included. -/
structure Preserved (e e' : Engine) : Prop extends Restored e e' where
  sources : ∀ {name o o'}, e.Resting name o → e'.Resting name o' → o'.id = o.id →
    o'.source = o.source

/-- The engine can be dumped, and loading the slice gives back everything. -/
def Survives (e₀ e : Engine) : Prop :=
  ∃ (d : SliceDb) (row : SliceRow) (e' : Engine), row.endOrderId = e.world.orderIdStart ∧
    d.Complete row.time e.slice ∧ e₀.loadSlice d row = some e' ∧ Preserved e e'

/-! ## What fits survives -/

omit [Libmpdec] [Settings] in
theorem storeDecimal_fits {scale : ℕ} {a : Mpd} (finite : a.isFinite)
    (fits : Decimal.Fits scale a.value) : ∃ units, storeDecimal scale a = some units := by
  rcases storeDecimal_of_fits finite fits with ⟨units, stored, _⟩
  exact ⟨units, stored⟩

omit [Libmpdec] [Settings] in
theorem Order.Lossless.stored (lossless : o.Lossless) (resting : o.Resting conf) :
    ∃ row, orderRow o = some row := by
  rcases storeDecimal_fits resting.priceFinite lossless.whole.price with ⟨_, price⟩
  rcases storeDecimal_fits resting.amountFinite lossless.whole.amount with ⟨_, amount⟩
  rcases storeDecimal_fits resting.takerFee.finite lossless.whole.takerFee with ⟨_, takerFee⟩
  rcases storeDecimal_fits resting.makerFee.finite lossless.whole.makerFee with ⟨_, makerFee⟩
  rcases storeDecimal_fits resting.leftFinite lossless.whole.left with ⟨_, left⟩
  rcases Option.isSome_iff_exists.mp lossless.freeze with ⟨_, freeze⟩
  rcases storeDecimal_fits lossless.dealStock lossless.whole.dealStock with ⟨_, dealStock⟩
  rcases storeDecimal_fits lossless.dealMoney lossless.whole.dealMoney with ⟨_, dealMoney⟩
  rcases storeDecimal_fits lossless.dealFee lossless.whole.dealFee with ⟨_, dealFee⟩
  unfold orderRow
  rw [if_pos ⟨lossless.id, lossless.userId, lossless.market⟩]
  simp only [price, amount, takerFee, makerFee, left, freeze, dealStock, dealMoney, dealFee,
    Option.bind_eq_bind, Option.bind_some]
  exact ⟨_, rfl⟩

omit [Libmpdec] [Settings] in
theorem mapM_orderRow {orders : List Order} (stored : ∀ o ∈ orders, ∃ row, orderRow o = some row) :
    ∃ rows, orders.mapM orderRow = some rows := by
  induction orders with
  | nil => exact ⟨[], rfl⟩
  | cons o rest ih =>
      rcases stored o List.mem_cons_self with ⟨row, first⟩
      rcases ih fun other member => stored other (List.mem_cons_of_mem _ member) with ⟨rows, later⟩
      refine ⟨row :: rows, ?_⟩
      rw [List.mapM_cons, first, later]
      rfl

omit [Libmpdec] [Settings] in
theorem balanceRows_stored {entries : List BalanceEntry} (id : ℕ)
    (lossless : ∀ entry ∈ entries, entry.2.isFinite ∧ entry.1.Lossless entry.2) :
    ∃ rows, balanceRows id entries = some rows := by
  induction entries generalizing id with
  | nil => exact ⟨[], rfl⟩
  | cons entry rest ih =>
      rcases lossless entry List.mem_cons_self with ⟨finite, own⟩
      rcases storeDecimal_fits finite own.fits with ⟨units, stored⟩
      rcases ih (id + 1) fun other member => lossless other (List.mem_cons_of_mem _ member) with
        ⟨rows, later⟩
      refine ⟨⟨id, entry.1.userId, entry.1.asset, entry.1.type, units⟩ :: rows, ?_⟩
      unfold balanceRows balanceRow
      rw [if_pos ⟨own.userId, own.asset⟩, stored, later]
      rfl

omit [Libmpdec] [Settings] in
/-- Rows have the ids of their orders. -/
theorem orderRows_ids {orders : List Order} {rows : List OrderRow}
    (made : orders.mapM orderRow = some rows) : rows.map OrderRow.id = orders.map Order.id := by
  have stored := orderRows_spec made
  clear made
  induction stored with
  | nil => rfl
  | cons first _ ih => rw [List.map_cons, List.map_cons, ih, (orderRow_of first).id]

omit [Libmpdec] in
/-- What is lossless can be dumped. -/
theorem Engine.Lossless.dumped (lossless : e.Lossless) (start : Engine.start = some e₀)
    (rooted : Rooted e₀ e) (inv : EngineInv e) (time : ℕ) :
    ∃ d : SliceDb, d.Complete time e.slice := by
  have stored : ∀ o ∈ e.slice.orders, ∃ row, orderRow o = some row := by
    intro o member
    rcases (mem_slice_orders start rooted inv).mp member with ⟨name, m, ref, found, rests⟩
    exact (lossless.orders ⟨m, ref, found, rests⟩).stored ((inv.market found).resting rests)
  rcases mapM_orderRow stored with ⟨orders, made⟩
  have entries : ∀ entry ∈ e.slice.balances, entry.2.isFinite ∧ entry.1.Lossless entry.2 := by
    intro entry member
    rcases List.mem_map.mp member with ⟨⟨key, value⟩, listed, rfl⟩
    have found := mem_entries_iff.mp listed
    exact ⟨(inv.sound key value found).finite, lossless.balances found⟩
  rcases balanceRows_stored 1 entries with ⟨balances, written⟩
  refine ⟨{ SliceDb.empty with
    orders := fun _ => some orders
    balances := fun _ => some balances }, ⟨orders, rfl, made, ?_⟩, balances, rfl, written⟩
  rw [orderRows_ids made]
  exact lossless.once

theorem Engine.Lossless.survives (lossless : e.Lossless) (start : Engine.start = some e₀)
    (sane : Sane e₀ e) : Survives e₀ e := by
  rcases lossless.dumped start sane.rooted sane.inv 0 with ⟨d, complete⟩
  have recorded : d.Complete (e.slice.row 1 0).time e.slice := complete
  rcases loadSlice_spec start sane.rooted sane.inv recorded with
    ⟨_, e', _, _, loaded, loads, _⟩
  have whole : e.Whole :=
    ⟨fun resting => (lossless.orders resting).whole, fun found => (lossless.balances found).fits⟩
  refine ⟨d, e.slice.row 1 0, e', rfl, complete, loaded, loads.restored sane.inv whole, ?_⟩
  intro name o o' resting resting' _
  have source := (lossless.orders resting).source
  rcases resting with ⟨m, ref, found, rests⟩
  rcases (loads.resting found).mp resting' with ⟨o₂, _, row, _, rfl⟩
  exact source.symm

/-! ## What survives fits -/

omit [Settings] in
/-- An order whose reloaded fields are the same fits. -/
theorem Order.Reloads.whole (reloads : o.Reloads conf o') (resting : o.Resting conf)
    (same : o'.data = o.data) : o.Whole := by
  rcases reloads with ⟨row, stored, rfl⟩
  have of := orderRow_of stored
  have left := fits_of_columnDecimal of.left resting.leftDigits.onGrid
    (congrArg OrderData.left same)
  have freeze : (freezeAmount (row.load conf)).value = o.freeze.value :=
    congrArg OrderData.freeze same
  have digits : SigDigits mpdCtx (freezeAmount (row.load conf)).value := by
    unfold freezeAmount
    cases (row.load conf).side with
    | ask =>
        have value : (row.load conf).left.value = o.left.value := congrArg OrderData.left same
        simp only [value]
        exact left.sigDigits (by decide)
    | bid => exact (Libmpdec.mul_rounds columnDecimal_isFinite columnDecimal_isFinite).sigDigits
  exact
    { price := fits_of_columnDecimal of.price resting.priceDigits.onGrid
        (congrArg OrderData.price same)
      amount := fits_of_columnDecimal of.amount resting.amountDigits.onGrid
        (congrArg OrderData.amount same)
      takerFee := fits_of_columnDecimal of.takerFee resting.takerFee.digits.onGrid
        (congrArg OrderData.takerFee same)
      makerFee := fits_of_columnDecimal of.makerFee resting.makerFee.digits.onGrid
        (congrArg OrderData.makerFee same)
      left := left
      freeze := freeze ▸ digits
      dealStock := fits_of_whole of.dealStock (congrArg OrderData.dealStock same)
      dealMoney := fits_of_whole of.dealMoney (congrArg OrderData.dealMoney same)
      dealFee := fits_of_whole of.dealFee (congrArg OrderData.dealFee same) }

omit [Libmpdec] in
/-- Of two orders of one id in a market there is one. -/
theorem EngineInv.resting_unique (inv : EngineInv e) (one : e.Resting name o)
    (two : e.Resting name o') (same : o.id = o'.id) : o = o' := by
  rcases one with ⟨m, ref, found, rests⟩
  rcases two with ⟨m', ref', found', rests'⟩
  rw [found] at found'
  obtain rfl := Option.some.inj found'
  obtain rfl := (inv.market found).index.unique rests rests' same
  exact rests.eq rests'.1

omit [Libmpdec] in
theorem Restored.resting (restored : Restored e e') (inv : EngineInv e) (inv' : ∀ {name m},
    dictFind e'.markets name = some m → IndexInv m e'.world.heap) (resting : e.Resting name o) :
    ∃ o', e'.Resting name o' ∧ o'.data = o.data := by
  rcases resting with ⟨m, ref, found, rests⟩
  have known : (dictFind e'.markets name).isSome := by
    rw [restored.configured, found]
    rfl
  rcases Option.isSome_iff_exists.mp known with ⟨m', found'⟩
  have lookup := (restored.markets found found').lookup o.id
  have own : m.lookup e.world.heap o.id = some o.data :=
    (lookup_eq_some (inv.market found).index).mpr ⟨⟨ref, o, rests, rfl⟩, rfl⟩
  rw [own] at lookup
  rcases (lookup_eq_some (inv' found')).mp lookup with ⟨⟨ref', o', rests', same⟩, _⟩
  exact ⟨o', ⟨m', ref', found', rests'⟩, same⟩

omit [Libmpdec] [Settings] in
/-- A row that could be written had room. -/
theorem orderRow_room {row : OrderRow} (stored : orderRow o = some row) :
    o.id < 2 ^ 64 ∧ o.userId < 2 ^ 32 ∧ o.market.length ≤ nameColumn := by
  unfold orderRow at stored
  split at stored
  · assumption
  · cases stored

omit [Libmpdec] [Settings] in
theorem balanceRows_room {id : ℕ} {entries : List BalanceEntry} {rows : List BalanceRow}
    (made : balanceRows id entries = some rows) :
    ∀ entry ∈ entries, entry.1.userId < 2 ^ 32 ∧ entry.1.asset.length ≤ nameColumn := by
  induction entries generalizing id rows with
  | nil => simp
  | cons first rest ih =>
      simp only [balanceRows, Option.bind_eq_bind, Option.bind_eq_some_iff] at made
      rcases made with ⟨row, written, others, later, _⟩
      intro entry member
      rcases List.mem_cons.mp member with rfl | inside
      · unfold balanceRow at written
        split at written
        · assumption
        · cases written
      · exact ih later entry inside

theorem Survives.lossless (survives : Survives e₀ e) (start : Engine.start = some e₀)
    (sane : Sane e₀ e) : e.Lossless := by
  rcases survives with ⟨d, row, e', _, complete, loaded, preserved⟩
  rcases loadSlice_spec start sane.rooted sane.inv complete with ⟨_, e'', _, _, run, loads, _⟩
  rw [loaded, Option.some.injEq] at run
  subst run
  have restored := preserved.toRestored
  constructor
  · intro name o resting
    rcases restored.resting sane.inv loads.index resting with ⟨o', resting', same⟩
    have source := preserved.sources resting resting' (congrArg OrderData.id same)
    have terms : ∃ m, dictFind e.markets name = some m ∧ o.Resting m.toMarketConf := by
      rcases resting with ⟨m, ref, found, rests⟩
      exact ⟨m, found, (sane.inv.market found).resting rests⟩
    rcases terms with ⟨m, found, terms⟩
    rcases (loads.resting found).mp resting' with ⟨o₂, resting₂, reloads⟩
    have ids : o₂.id = o.id := by
      rcases reloads with ⟨r, stored, rfl⟩
      exact (orderRow_of stored).id.symm.trans (congrArg OrderData.id same)
    obtain rfl := sane.inv.resting_unique resting₂ resting ids
    have whole := reloads.whole terms same
    rcases reloads with ⟨r, stored, rfl⟩
    have of := orderRow_of stored
    rcases orderRow_room stored with ⟨id, userId, market⟩
    exact ⟨id, userId, market, storeDecimal_isFinite of.dealStock,
      storeDecimal_isFinite of.dealMoney, storeDecimal_isFinite of.dealFee,
      Option.isSome_iff_exists.mpr ⟨_, of.freeze⟩, whole, source.symm⟩
  · intro key entry found
    rcases complete.2 with ⟨rows, _, made⟩
    have member : (key, entry) ∈ e.slice.balances :=
      List.mem_map.mpr ⟨⟨key, entry⟩, mem_entries_iff.mpr found, rfl⟩
    rcases balanceRows_room made _ member with ⟨userId, asset⟩
    rcases loads.present found with ⟨units, stored, held⟩
    rcases (sane.inv.sound key entry found).digits with ⟨type, known, digits⟩
    rw [restored.balances, Ledger.holds_of_some found, assetPrec_of_some known] at held
    exact ⟨userId, asset, fits_of_truncated stored digits.onGrid held.symm⟩
  · rcases complete.1 with ⟨rows, _, made, distinct⟩
    rw [← orderRows_ids made]
    exact distinct

/-- An engine survives a dump and a load precisely when it is lossless. -/
theorem survives_iff (start : Engine.start = some e₀) (reaches : Reaches e₀ e) :
    Survives e₀ e ↔ e.Lossless :=
  ⟨fun survives => survives.lossless start (reaches.sane start),
    fun lossless => lossless.survives start (reaches.sane start)⟩

end Loss

/-! ## A source is lost -/

section Small

attribute [local instance] smallSettings Libmpdec.reference

theorem smallEngine_rests : (smallEngine.world.heap 1).isSome := by decide +kernel

/-- The order that rests in the small engine. -/
def smallOrder : Order :=
  (smallEngine.world.heap 1).get smallEngine_rests

/-- An open order has a source. -/
theorem source_lost : ¬ Survives smallStart smallEngine := by
  intro survives
  have lossless := survives.lossless smallStart_eq smallEngine_sane
  have dumped : smallOrder ∈ smallEngine.slice.orders := by decide +kernel
  rcases (mem_slice_orders smallStart_eq smallEngine_sane.rooted smallEngine_sane.inv).mp dumped
    with ⟨name, resting⟩
  have source := (lossless.orders resting).source
  exact absurd source (by decide +kernel)

/-- What the order table keeps of the small engine loses nothing more. -/
theorem smallAgain_lossless : smallAgain.Lossless := by
  have sane := smallAgain_reaches.sane smallStart_eq
  have orders : ∀ o ∈ smallAgain.slice.orders, (o.id < 2 ^ 64 ∧ o.userId < 2 ^ 32 ∧
      o.market.length ≤ nameColumn) ∧ (o.dealStock.isFinite ∧ o.dealMoney.isFinite ∧
      o.dealFee.isFinite) ∧ (storeDecimal orderScale o.freeze).isSome ∧ o.Fits ∧
      o.source = none := by
    decide +kernel
  have balances : ∀ entry ∈ smallAgain.slice.balances, entry.1.userId < 2 ^ 32 ∧
      entry.1.asset.length ≤ nameColumn ∧ Decimal.Fits balanceScale entry.2.value := by
    decide +kernel
  constructor
  · intro name o resting
    have dumped := (mem_slice_orders smallStart_eq sane.rooted sane.inv).mpr ⟨name, resting⟩
    rcases orders o dumped with ⟨⟨id, userId, market⟩, ⟨stock, money, fee⟩, freeze, fits, source⟩
    exact ⟨id, userId, market, stock, money, fee, freeze, fits.whole, source⟩
  · intro key entry found
    rcases balances (key, entry) (List.mem_map.mpr ⟨⟨key, entry⟩, mem_entries_iff.mpr found, rfl⟩)
      with ⟨userId, asset, fits⟩
    exact ⟨userId, asset, fits⟩
  · decide +kernel

theorem survives_small : Survives smallStart smallAgain :=
  (survives_iff smallStart_eq smallAgain_reaches).mpr smallAgain_lossless

end Small

end ViabtcServer.MatchEngine
