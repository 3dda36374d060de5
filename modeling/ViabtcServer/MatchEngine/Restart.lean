import ViabtcServer.MatchEngine.Dump
import ViabtcServer.MatchEngine.LoadSlice

/-!
# Dumping and loading an engine

An engine whose tables are complete is loaded into a started one. The books,
the user lists and the id index come back in the same order, whatever the
columns do to the numbers beside the prices.
-/

namespace ViabtcServer.MatchEngine

open Decimal Container Sql

variable [Libmpdec] [Settings] {e₀ e e' : Engine} {name : String} {m : Market} {ref : Ref}
  {o : Order}

/-! ## The configured markets -/

omit [Libmpdec] in
/-- The markets of a started engine are those of the configuration. -/
theorem initTrade_configured {markets : Dict String Market} (init : initTrade = some markets)
    (name : String) :
    (dictFind markets name).isSome ↔ ∃ conf ∈ Settings.markets, conf.name = name := by
  have names (confs : List MarketConf) : ∀ dict result : Dict String Market,
      confs.foldlM (fun dict conf =>
        (marketCreate conf).map fun m => (dictAdd dict conf.name m).getD dict) dict =
          some result →
      ((dictFind result name).isSome ↔
        (dictFind dict name).isSome ∨ ∃ conf ∈ confs, conf.name = name) := by
    induction confs with
    | nil =>
        intro dict result run
        obtain rfl := Option.some.inj run
        simp
    | cons conf confs ih =>
        intro dict result run
        rw [List.foldlM_cons, Option.bind_eq_bind, Option.bind_eq_some_iff] at run
        rcases run with ⟨next, step, rest⟩
        rcases Option.map_eq_some_iff.mp step with ⟨new, create, rfl⟩
        have added : (dictFind ((dictAdd dict conf.name new).getD dict) name).isSome ↔
            (dictFind dict name).isSome ∨ conf.name = name := by
          cases present : dictFind dict conf.name with
          | some old =>
              rw [dictAdd_of_present present, Option.getD_none]
              constructor
              · exact Or.inl
              · rintro (found | rfl)
                · exact found
                · rw [present]
                  rfl
          | none =>
              rw [dictAdd_of_fresh present, Option.getD_some]
              by_cases same : name = conf.name
              · subst same
                simp
              · simp [dictFind_replace_ne same, Ne.symm same]
        rw [ih _ result rest, added, or_assoc]
        simp
  rw [names Settings.markets ∅ markets init, dictFind_empty]
  simp

/-- What commands never change: the markets are those the engine was started
with, and no order has the id zero. -/
structure Rooted (e₀ e : Engine) : Prop where
  confs : ∀ name, (dictFind e.markets name).map Market.toMarketConf =
    (dictFind e₀.markets name).map Market.toMarketConf
  positive : ∀ {name m ref o}, dictFind e.markets name = some m → m.Rests e.world.heap ref o →
    0 < o.id

/-- What a step does to the orders: nothing, or a command on one market. -/
theorem Step.orders (step : Step e e') (inv : EngineInv e) :
    (e'.markets = e.markets ∧ e'.world.heap = e.world.heap) ∨
      ∃ name m outcome, dictFind e.markets name = some m ∧
        MarketStep (e.heldBeside name) m outcome.market e.world outcome.world ∧
        e'.markets = (e.install name outcome).markets ∧ e'.world = outcome.world := by
  have updated {real : Bool} {now : Time} {padding : ℕ} {a : UpdateArgs} {e₁ : Engine}
      (run : updateUserBalance real now padding e a = (0, e₁)) :
      e₁.markets = e.markets ∧ e₁.world.heap = e.world.heap := by
    rcases updateUserBalance_cases real now padding e a with
      repeated | refused | ⟨_, _, _, _, _, _, changed⟩
    · exact absurd (repeated.symm.trans run) (by simp)
    · exact absurd (refused.symm.trans run) (by simp)
    · obtain ⟨_, rfl⟩ := Prod.mk.inj (changed.symm.trans run)
      exact ⟨rfl, by rw [World.emit_heap, World.emit_heap]⟩
  cases step with
  | timer now => exact Or.inl ⟨rfl, rfl⟩
  | @command _ now fuel command reply wellFormed run exact =>
      cases command with
      | balanceUpdate padding params =>
          rcases onCmdBalanceUpdate_cases (Option.some.inj run) with
            ⟨_, rfl⟩ | ⟨_, _, _, _, _, a, e₁, rfl, _, _, changed, _, rfl⟩
          · exact Or.inl ⟨rfl, rfl⟩
          · exact Or.inl ⟨(updated changed).1, (updated changed).2⟩
      | orderPutLimit params =>
          rcases onCmdOrderPutLimit_cases run with ⟨_, rfl⟩ | ⟨a, st', read, put, _, _, rfl⟩
          · exact Or.inl ⟨rfl, rfl⟩
          · rcases inv.limit read (wellFormed a read) put exact with ⟨found, step, _⟩
            exact Or.inr ⟨_, _, _, found, step, rfl, rfl⟩
      | orderPutMarket params =>
          rcases onCmdOrderPutMarket_cases run with ⟨_, rfl⟩ | ⟨a, _, st', read, put, _, _, rfl⟩
          · exact Or.inl ⟨rfl, rfl⟩
          · rcases inv.marketOrder read (wellFormed a read) put exact with ⟨found, step, _⟩
            exact Or.inr ⟨_, _, _, found, step, rfl, rfl⟩
      | orderCancel params =>
          rcases onCmdOrderCancel_cases (Option.some.inj run) with
            ⟨_, rfl⟩ | ⟨a, ref, order, read, found, _, _, rfl⟩
          · exact Or.inl ⟨rfl, rfl⟩
          · rcases inv.cancel read found exact with ⟨market, step, _⟩
            exact Or.inr ⟨_, _, _, market, step, rfl, rfl⟩
  | @replay _ now fuel padding method params wellFormed run exact =>
      unfold loadOper at run
      split at run
      · rcases loadUpdateBalance_cases (Option.some.inj run) with
          rfl | ⟨_, _, _, _, _, a, rfl, _, _, changed⟩
        · exact Or.inl ⟨rfl, rfl⟩
        · exact Or.inl (updated changed)
      split at run
      · rcases loadLimitOrder_cases run with rfl | ⟨a, st', read, put, _, rfl⟩
        · exact Or.inl ⟨rfl, rfl⟩
        · rcases inv.limit read (wellFormed.limit read) put exact with ⟨found, step, _⟩
          exact Or.inr ⟨_, _, _, found, step, rfl, rfl⟩
      split at run
      · rcases loadMarketOrder_cases run with rfl | ⟨a, _, st', read, put, _, rfl⟩
        · exact Or.inl ⟨rfl, rfl⟩
        · rcases inv.marketOrder read (wellFormed.market read) put exact with ⟨found, step, _⟩
          exact Or.inr ⟨_, _, _, found, step, rfl, rfl⟩
      split at run
      · rcases loadCancelOrder_cases (Option.some.inj run) with
          rfl | ⟨a, ref, order, read, found, rfl⟩
        · exact Or.inl ⟨rfl, rfl⟩
        · rcases inv.cancel read found exact with ⟨market, step, _⟩
          exact Or.inr ⟨_, _, _, market, step, rfl, rfl⟩
      · cases run

theorem Step.rooted (step : Step e e') (inv : EngineInv e) (rooted : Rooted e₀ e) :
    Rooted e₀ e' := by
  rcases step.orders inv with
    ⟨markets, heap⟩ | ⟨name, m, outcome, found, marketStep, markets, world⟩
  · constructor
    · intro name
      rw [markets, rooted.confs]
    · intro name m ref o found rests
      rw [markets] at found
      rw [heap] at rests
      exact rooted.positive found rests
  · constructor
    · intro other
      rw [markets, Engine.install]
      by_cases same : other = name
      · subst same
        rw [dictFind_replace, Option.map_some, marketStep.conf, ← rooted.confs, found,
          Option.map_some]
      · rw [dictFind_replace_ne same, rooted.confs]
    · intro other n ref o found' rests
      rw [markets, Engine.install] at found'
      rw [world] at rests
      by_cases same : other = name
      · subst same
        rw [dictFind_replace] at found'
        obtain rfl := Option.some.inj found'
        rcases marketStep.rests rests with ⟨o₀, before, keep⟩ | ⟨_, new⟩
        · rw [keep.id]
          exact rooted.positive found before
        · exact Nat.zero_lt_of_lt new
      · rw [dictFind_replace_ne same] at found'
        have back := ((inv.market found').beside marketStep.nextRef_le marketStep.orderId_le
          (inv.heap_beside found marketStep same found')).2 rests
        exact rooted.positive found' back

/-! ## What is dumped -/

/-- The order rests in the market of that name. -/
def Engine.Resting (e : Engine) (name : String) (o : Order) : Prop :=
  ∃ m ref, dictFind e.markets name = some m ∧ m.Rests e.world.heap ref o

omit [Libmpdec] in
/-- Exactly the resting orders are dumped. -/
theorem mem_slice_orders (start : Engine.start = some e₀) (rooted : Rooted e₀ e)
    (inv : EngineInv e) {o : Order} : o ∈ e.slice.orders ↔ ∃ name, e.Resting name o := by
  have listed {name : String} {m : Market} (found : dictFind e.markets name = some m) :
      (o ∈ m.asks.filterMap e.world.heap ∨ o ∈ m.bids.filterMap e.world.heap) ↔
        ∃ ref, m.Rests e.world.heap ref o := by
    simp only [List.mem_filterMap]
    constructor
    · rintro (⟨ref, member, live⟩ | ⟨ref, member, live⟩)
      · have asked : ref ∈ m.book .ask := member
        rcases (inv.market found).index.listed asked with ⟨o', listed⟩
        obtain rfl := Option.some.inj (listed.found.symm.trans live)
        exact ⟨ref, live, by rw [listed.side]; exact member⟩
      · have bidden : ref ∈ m.book .bid := member
        rcases (inv.market found).index.listed bidden with ⟨o', listed⟩
        obtain rfl := Option.some.inj (listed.found.symm.trans live)
        exact ⟨ref, live, by rw [listed.side]; exact member⟩
    · rintro ⟨ref, live, member⟩
      cases side : o.side with
      | ask =>
          rw [side] at member
          exact Or.inl ⟨ref, member, live⟩
      | bid =>
          rw [side] at member
          exact Or.inr ⟨ref, member, live⟩
  unfold Slice.orders Engine.slice Engine.Resting
  simp only [List.mem_flatMap, List.mem_map, exists_exists_and_eq_and]
  constructor
  · rintro ⟨conf, _, member⟩
    cases found : dictFind e.markets conf.name with
    | none =>
        rw [found] at member
        cases member
    | some m =>
        rw [found] at member
        rcases (listed found).mp (List.mem_append.mp member) with ⟨ref, rests⟩
        exact ⟨conf.name, m, ref, found, rests⟩
  · rintro ⟨name, m, ref, found, rests⟩
    have known : (dictFind e₀.markets name).isSome := by
      have conf := rooted.confs name
      rw [found] at conf
      rcases Option.map_eq_some_iff.mp conf.symm with ⟨m₀, found₀, _⟩
      rw [found₀]
      rfl
    unfold Engine.start at start
    split at start
    · cases start
    rcases Option.map_eq_some_iff.mp start with ⟨markets, init, rfl⟩
    rcases (initTrade_configured init name).mp known with ⟨conf, member, rfl⟩
    refine ⟨conf, member, ?_⟩
    rw [found]
    exact List.mem_append.mpr ((listed found).mpr ⟨ref, rests⟩)

omit [Libmpdec] in
/-- No configured market is missing. -/
theorem slice_markets (start : Engine.start = some e₀) (rooted : Rooted e₀ e) :
    none ∉ e.slice.markets := by
  intro member
  rcases List.mem_map.mp member with ⟨conf, configured, missing⟩
  unfold Engine.start at start
  split at start
  · cases start
  rcases Option.map_eq_some_iff.mp start with ⟨markets, init, rfl⟩
  have known := (initTrade_configured init conf.name).mpr ⟨conf, configured, rfl⟩
  have same := rooted.confs conf.name
  rw [Option.map_eq_none_iff.mp missing, Option.map_none] at same
  rw [Option.map_eq_none_iff.mp same.symm] at known
  cases known

/-! ## What is loaded -/

/-- An engine that was just started. -/
structure Fresh (e₀ : Engine) : Prop where
  inv : EngineInv e₀
  none : ∀ {name o}, ¬ e₀.Resting name o
  balances : e₀.world.ledger.balances = ∅
  exact : e₀.world.ledger.exact = true

omit [Libmpdec] in
theorem Engine.fresh_start (start : Engine.start = some e₀) : Fresh e₀ := by
  have inv := (engineStart_inv start).1
  unfold Engine.start at start
  split at start
  · cases start
  rcases Option.map_eq_some_iff.mp start with ⟨markets, init, rfl⟩
  refine ⟨inv, ?_, rfl, rfl⟩
  rintro name o ⟨m, ref, found, rests⟩
  cases rests.1

omit [Libmpdec] in
theorem Fresh.resume (fresh : Fresh e₀) (row : SliceRow) : Fresh (e₀.resume row) where
  inv :=
    { named := fresh.inv.named
      market := fun {name m} found => by
        have before := fresh.inv.market found
        have none_ {ref : Ref} {o : Order} : ¬ m.Rests e₀.world.heap ref o :=
          fun rests => fresh.none ⟨m, ref, found, rests⟩
        exact ⟨before.ok, before.index, fun rests => absurd rests none_,
          fun rests => absurd rests none_, fun rests => absurd rests none_⟩
      apart := fresh.inv.apart
      sound := fresh.inv.sound
      backed := fresh.inv.backed }
  none := fresh.none
  balances := fresh.balances
  exact := fresh.exact

/-- An order and what a slice makes of it. -/
def Order.Reloads (conf : MarketConf) (o o' : Order) : Prop :=
  ∃ row, orderRow o = some row ∧ o' = (row.load conf).placed

/-- What comes back of an engine that was dumped and loaded, whatever the
columns hold. -/
structure LoadsSlice (e e' : Engine) : Prop where
  confs : ∀ name, (dictFind e'.markets name).map Market.toMarketConf =
    (dictFind e.markets name).map Market.toMarketConf
  index : ∀ {name m}, dictFind e'.markets name = some m → IndexInv m e'.world.heap
  stored : ∀ {name o}, e.Resting name o → ∃ row, orderRow o = some row
  resting : ∀ {name m}, dictFind e.markets name = some m → ∀ {o'},
    e'.Resting name o' ↔ ∃ o, e.Resting name o ∧ o.Reloads m.toMarketConf o'
  below : ∀ {name m}, dictFind e'.markets name = some m → ∀ {ref o},
    m.Rests e'.world.heap ref o → ref < e'.world.nextRef
  exact : (∀ {name m o o'}, dictFind e.markets name = some m → e.Resting name o →
    o.Reloads m.toMarketConf o' → SigDigits mpdCtx o'.frozen) → e'.world.ledger.exact = true
  sound : e'.world.ledger.Sound
  absent : ∀ {key}, dictFind e.world.ledger.balances key = none → e'.world.ledger.holds key = 0
  present : ∀ {key entry}, dictFind e.world.ledger.balances key = some entry →
    ∃ units, storeDecimal balanceScale entry = some units ∧ e'.world.ledger.holds key =
      truncateAt (-assetPrec key.asset) (readDecimal balanceScale units).value

omit [Libmpdec] in
/-- Orders of reachable markets are told apart by their ids, wherever they rest. -/
theorem EngineInv.resting_market (inv : EngineInv e) (resting : e.Resting name o) :
    o.market = name := by
  rcases resting with ⟨m, ref, found, rests⟩
  rw [((inv.market found).resting rests).market, inv.named found]

omit [Libmpdec] [Settings] in
theorem storeDecimal_nonneg {scale : ℕ} {a : Mpd} {units : ℤ}
    (stored : storeDecimal scale a = some units) (nonneg : 0 ≤ a.value) : 0 ≤ units := by
  unfold storeDecimal at stored
  split at stored
  · obtain rfl := Option.some.inj stored
    unfold columnRound
    rw [if_pos nonneg]
    apply Int.floor_nonneg.mpr
    positivity
  · cases stored

/-- The orders of complete tables are loaded before any balance is there. -/
theorem loadOrders_slice {d : SliceDb} {time : ℕ} (row : SliceRow)
    (start : Engine.start = some e₀) (rooted : Rooted e₀ e) (inv : EngineInv e)
    (complete : d.Complete time e.slice) :
    ∃ rows loaded, (∀ {r}, r ∈ rows ↔ ∃ name o, e.Resting name o ∧ orderRow o = some r) ∧
      (∀ {name o}, e.Resting name o → ∃ r, orderRow o = some r) ∧
      loadOrders d time (e₀.resume row) = some loaded ∧
      HoldsRows (e₀.resume row) loaded rows := by
  rcases complete with ⟨⟨rows, table, made, distinct⟩, _⟩
  have fresh := (Engine.fresh_start start).resume row
  rcases mem_of_forall₂ (orderRows_spec made) with ⟨forward, back⟩
  have stored {name : String} {o : Order} (resting : e.Resting name o) :
      ∃ r ∈ rows, orderRow o = some r :=
    forward o ((mem_slice_orders start rooted inv).mpr ⟨name, resting⟩)
  have member {r : OrderRow} : r ∈ rows ↔ ∃ name o, e.Resting name o ∧ orderRow o = some r := by
    constructor
    · intro inside
      rcases back r inside with ⟨o, dumped, written⟩
      rcases (mem_slice_orders start rooted inv).mp dumped with ⟨name, resting⟩
      exact ⟨name, o, resting, written⟩
    · rintro ⟨name, o, resting, written⟩
      rcases stored resting with ⟨r', inside, written'⟩
      rw [written, Option.some.injEq] at written'
      exact written' ▸ inside
  rcases loadOrders_spec table (fun found => (fresh.inv.market found).index)
    (fun found rests => fresh.none ⟨_, _, found, rests⟩) fresh.balances
    (fun r inside => by
      rcases member.mp inside with ⟨name, o, ⟨m, ref, found, rests⟩, stored⟩
      exact (orderRow_of stored).type.trans ((inv.market found).resting rests).limit)
    distinct
    (fun r inside => by
      rcases member.mp inside with ⟨name, o, ⟨m, ref, found, rests⟩, stored⟩
      rw [(orderRow_of stored).id]
      exact rooted.positive found rests) with ⟨loaded, run, holds⟩
  refine ⟨rows, loaded, member, fun resting => ?_, run, holds⟩
  rcases stored resting with ⟨r, _, written⟩
  exact ⟨r, written⟩

/-- Complete balances are loaded into a ledger without balances. -/
theorem loadBalance_slice {d : SliceDb} {time : ℕ} {loaded : Engine}
    (sound : e.world.ledger.Sound) (complete : d.HoldsBalances time e.slice.balances)
    (empty : loaded.world.ledger.balances = ∅) :
    ∃ l, loadBalance d time loaded =
        some { loaded with world := { loaded.world with ledger := l } } ∧
      l.Sound ∧ l.exact = loaded.world.ledger.exact ∧
      (∀ {key}, dictFind e.world.ledger.balances key = none → l.holds key = 0) ∧
      ∀ {key entry}, dictFind e.world.ledger.balances key = some entry →
        ∃ units, storeDecimal balanceScale entry = some units ∧
          l.holds key =
            truncateAt (-assetPrec key.asset) (readDecimal balanceScale units).value := by
  rcases complete with ⟨entries, table, balances⟩
  rcases balanceRows_spec balances with ⟨stored, ids⟩
  rcases mem_of_forall₂ stored with ⟨forward, back⟩
  have soundLoaded : loaded.world.ledger.Sound := by
    intro key entry found
    rw [empty, dictFind_empty] at found
    cases found
  -- a row is there for each entry, and for nothing else
  have entryOf {row : BalanceRow} (inside : row ∈ entries) :
      ∃ entry, dictFind e.world.ledger.balances row.key = some entry ∧
        storeDecimal balanceScale entry = some row.balance := by
    rcases back row inside with ⟨⟨key, entry⟩, member, same, written⟩
    rcases List.mem_map.mp member with ⟨⟨key', entry'⟩, listed, equal⟩
    obtain ⟨rfl, rfl⟩ := Prod.mk.inj equal
    exact ⟨_, by rw [same]; exact mem_entries_iff.mp listed, written⟩
  have keys : entries.map BalanceRow.key =
      e.world.ledger.balances.entries.map fun entry => entry.1 := by
    rw [balanceRows_keys balances, Engine.slice, List.map_map]
    rfl
  have ok (row : BalanceRow) (inside : row ∈ entries) : row.Ok := by
    rcases entryOf inside with ⟨entry, found, written⟩
    have ok := sound _ _ found
    rcases ok.digits with ⟨type, known, digits⟩
    exact ⟨⟨type, known, digits.nonneg⟩, storeDecimal_nonneg written ok.nonneg⟩
  have idsNodup : (entries.map BalanceRow.id).Nodup := by
    rw [ids]
    exact List.nodup_range'
  have positive (row : BalanceRow) (inside : row ∈ entries) : 0 < row.id := by
    have member := List.mem_map_of_mem (f := BalanceRow.id) inside
    rw [ids, List.mem_range'_1] at member
    exact member.1
  have distinct : (entries.map BalanceRow.key).Nodup := by
    rw [keys]
    exact e.world.ledger.balances.nodupKeys
  rcases loadBalance_spec table soundLoaded ok idsNodup positive distinct with ⟨l, set, loads⟩
  refine ⟨l, set, loads.sound, loads.exact, ?_, ?_⟩
  · intro key absent
    rw [loads.outside, Ledger.holds_of_none]
    · rw [empty, dictFind_empty]
    · rintro row inside rfl
      rcases entryOf inside with ⟨entry, found, _⟩
      rw [absent] at found
      cases found
  · intro key entry found
    rcases forward (key, entry) (List.mem_map.mpr ⟨⟨key, entry⟩, mem_entries_iff.mpr found, rfl⟩)
      with ⟨row, inside, same, written⟩
    refine ⟨row.balance, written, ?_⟩
    have held := loads.inside row inside
    have asset : row.asset = key.asset := congrArg BalanceKey.asset same
    rw [same, BalanceRow.loaded, asset] at held
    exact held

/-- Complete tables can be loaded. -/
theorem loadSlice_spec {d : SliceDb} {row : SliceRow} (start : Engine.start = some e₀)
    (rooted : Rooted e₀ e) (inv : EngineInv e) (complete : d.Complete row.time e.slice) :
    ∃ loaded e', loadOrders d row.time (e₀.resume row) = some loaded ∧
      loaded.world.ledger.balances = ∅ ∧ e₀.loadSlice d row = some e' ∧ LoadsSlice e e' ∧
      e'.world.orderIdStart = row.endOrderId := by
  rcases loadOrders_slice row start rooted inv complete with
    ⟨rows, loaded, member, stored, run, holds⟩
  have fresh := (Engine.fresh_start start).resume row
  have empty : loaded.world.ledger.balances = ∅ := holds.balances.trans fresh.balances
  rcases loadBalance_slice inv.sound complete.2 empty with ⟨l, set, sound, exact, absent, present⟩
  have confs (name : String) : (dictFind loaded.markets name).map Market.toMarketConf =
      (dictFind e.markets name).map Market.toMarketConf :=
    (holds.confs name).trans (rooted.confs name).symm
  refine ⟨loaded, { loaded with world := { loaded.world with ledger := l } }, run, empty, ?_, ?_,
    ?_⟩
  · unfold Engine.loadSlice loadSliceFromDb
    rw [run, Option.bind_some, set]
  · refine ⟨confs, holds.index, stored, ?_, holds.below, ?_, sound, absent, present⟩
    · intro name m found o'
      have conf := confs name
      rw [found, Option.map_some] at conf
      rcases Option.map_eq_some_iff.mp conf with ⟨m', found', same⟩
      constructor
      · rintro ⟨n, ref, known, rests⟩
        rw [found'] at known
        obtain rfl := Option.some.inj known
        rcases (holds.rests found').mp ⟨ref, rests⟩ with ⟨r, inside, named, rfl⟩
        rcases member.mp inside with ⟨name', o, resting, stored⟩
        have own := inv.resting_market resting
        rw [← (orderRow_of stored).market, named] at own
        subst own
        exact ⟨o, resting, r, stored, by rw [same]⟩
      · rintro ⟨o, resting, r, stored, rfl⟩
        have inside := member.mpr ⟨name, o, resting, stored⟩
        have named : r.market = name :=
          (orderRow_of stored).market.trans (inv.resting_market resting)
        rcases (holds.rests found').mpr ⟨r, inside, named, rfl⟩ with ⟨ref, rests⟩
        refine ⟨m', ref, found', ?_⟩
        rwa [same] at rests
    · intro digits
      refine exact.trans (holds.exact ?_ fresh.exact)
      intro r inside m₀ found₀
      rcases member.mp inside with ⟨name, o, resting, written⟩
      have named : r.market = name :=
        (orderRow_of written).market.trans (inv.resting_market resting)
      rw [named] at found₀
      have conf := rooted.confs name
      rw [show dictFind e₀.markets name = some m₀ from found₀] at conf
      rcases Option.map_eq_some_iff.mp conf with ⟨m, found, same⟩
      have placed := digits found resting ⟨r, written, rfl⟩
      rwa [same] at placed
  · exact holds.orderIdStart

end ViabtcServer.MatchEngine
