import ViabtcServer.MatchEngine.Load
import ViabtcServer.MatchEngine.Reach
import ViabtcServer.MatchEngine.Slice

/-!
# Loading a slice

`load_orders` puts the rows of the order table back one after the other with
`market_put_order`, and `load_balance` sets the balances afterwards. What these
calls return is not looked at.
-/

namespace ViabtcServer.MatchEngine

open Decimal Container

variable [Libmpdec]

/-! ## Rows -/

/-- The order made of a row. `memset` leaves its source `NULL`. -/
def OrderRow.load (row : OrderRow) (conf : MarketConf) : Order where
  id := row.id
  type := row.type
  side := row.side
  createTime := row.createTime
  updateTime := row.updateTime
  userId := row.userId
  market := row.market
  source := none
  price := columnDecimal orderScale conf.moneyPrec row.price
  amount := columnDecimal orderScale conf.stockPrec row.amount
  takerFee := columnDecimal feeScale conf.feePrec row.takerFee
  makerFee := columnDecimal feeScale conf.feePrec row.makerFee
  left := columnDecimal orderScale conf.stockPrec row.left
  freeze := columnDecimal orderScale 0 row.freeze
  dealStock := columnDecimal orderScale 0 row.dealStock
  dealMoney := columnDecimal dealMoneyScale 0 row.dealMoney
  dealFee := columnDecimal dealFeeScale 0 row.dealFee

/-- What is written of an order, column by column. -/
structure OrderRow.Of (row : OrderRow) (o : Order) : Prop where
  id : row.id = o.id
  type : row.type = o.type
  side : row.side = o.side
  createTime : row.createTime = o.createTime
  updateTime : row.updateTime = o.updateTime
  userId : row.userId = o.userId
  market : row.market = o.market
  price : storeDecimal orderScale o.price = some row.price
  amount : storeDecimal orderScale o.amount = some row.amount
  takerFee : storeDecimal feeScale o.takerFee = some row.takerFee
  makerFee : storeDecimal feeScale o.makerFee = some row.makerFee
  left : storeDecimal orderScale o.left = some row.left
  freeze : storeDecimal orderScale o.freeze = some row.freeze
  dealStock : storeDecimal orderScale o.dealStock = some row.dealStock
  dealMoney : storeDecimal dealMoneyScale o.dealMoney = some row.dealMoney
  dealFee : storeDecimal dealFeeScale o.dealFee = some row.dealFee

omit [Libmpdec] in
theorem orderRow_of {o : Order} {row : OrderRow} (made : orderRow o = some row) : row.Of o := by
  unfold orderRow at made
  split at made
  · simp only [Option.bind_eq_bind, Option.bind_eq_some_iff] at made
    rcases made with ⟨price, hprice, amount, hamount, taker, htaker, maker, hmaker, left, hleft,
      freeze, hfreeze, stock, hstock, money, hmoney, fee, hfee, same⟩
    obtain rfl := Option.some.inj same
    exact ⟨rfl, rfl, rfl, rfl, rfl, rfl, rfl, hprice, hamount, htaker, hmaker, hleft, hfreeze,
      hstock, hmoney, hfee⟩
  · cases made

omit [Libmpdec] in
theorem mem_of_forall₂ {α β : Type} {related : α → β → Prop} {as : List α} {bs : List β}
    (all : List.Forall₂ related as bs) :
    (∀ a ∈ as, ∃ b ∈ bs, related a b) ∧ ∀ b ∈ bs, ∃ a ∈ as, related a b := by
  induction all with
  | nil => simp
  | cons first _ ih =>
      constructor
      · intro a member
        rcases List.mem_cons.mp member with rfl | later
        · exact ⟨_, List.mem_cons_self, first⟩
        · rcases ih.1 a later with ⟨b, inside, holds⟩
          exact ⟨b, List.mem_cons_of_mem _ inside, holds⟩
      · intro b member
        rcases List.mem_cons.mp member with rfl | later
        · exact ⟨_, List.mem_cons_self, first⟩
        · rcases ih.2 b later with ⟨a, inside, holds⟩
          exact ⟨a, List.mem_cons_of_mem _ inside, holds⟩

omit [Libmpdec] in
/-- Every order has its row, in the order of the list. -/
theorem orderRows_spec {orders : List Order} {rows : List OrderRow}
    (made : orders.mapM orderRow = some rows) :
    List.Forall₂ (fun o row => orderRow o = some row) orders rows := by
  induction orders generalizing rows with
  | nil =>
      obtain rfl := Option.some.inj made
      exact .nil
  | cons o rest ih =>
      rw [List.mapM_cons] at made
      simp only [Option.bind_eq_bind, Option.bind_eq_some_iff] at made
      rcases made with ⟨first, stored, others, later, same⟩
      obtain rfl := Option.some.inj same
      exact .cons stored (ih later)

variable [Settings]

/-- The body of `load_orders`. -/
def loadOrderRow (e : Engine) (row : OrderRow) : Engine :=
  match dictFind e.markets row.market with
  | none => e
  | some m =>
      let (_, m, w) := marketPutOrder m e.world (row.load m.toMarketConf)
      { e with world := w, markets := dictReplace e.markets row.market m }

/-- The body of `load_balance`. -/
def loadBalanceRow (e : Engine) (row : BalanceRow) : Engine :=
  if assetExist row.asset then
    let balance := columnDecimal balanceScale (assetPrec row.asset) row.balance
    let (_, ledger) := balanceSet e.world.ledger ⟨row.userId, row.type, row.asset⟩ balance
    { e with world := { e.world with ledger := ledger } }
  else e

/-- `load_orders`; a missing table is an error. -/
def loadOrders (d : SliceDb) (time : ℕ) (e : Engine) : Option Engine :=
  (d.orders time).map fun rows =>
    (readTable OrderRow.id queryLimit (fun e row => (pure (loadOrderRow e row) : Id Engine))
      (orderBy OrderRow.id rows) 0 e).run

/-- `load_balance`. -/
def loadBalance (d : SliceDb) (time : ℕ) (e : Engine) : Option Engine :=
  (d.balances time).map fun rows =>
    (readTable BalanceRow.id queryLimit (fun e row => (pure (loadBalanceRow e row) : Id Engine))
      (orderBy BalanceRow.id rows) 0 e).run

/-- `load_slice_from_db`. -/
def loadSliceFromDb (d : SliceDb) (time : ℕ) (e : Engine) : Option Engine :=
  (loadOrders d time e).bind (loadBalance d time)

/-- The counters `init_from_db` takes from the row of the last slice. -/
def Engine.resume (e : Engine) (row : SliceRow) : Engine :=
  { e with world := { e.world with
      orderIdStart := row.endOrderId
      dealsIdStart := row.endDealsId } }

/-- `init_from_db` with a slice, up to the log. -/
def Engine.loadSlice (d : SliceDb) (row : SliceRow) (e : Engine) : Option Engine :=
  loadSliceFromDb d row.time (e.resume row)

/-! ## Orders -/

variable {e₀ e : Engine} {rows : List OrderRow} {row : OrderRow} {name : String} {m : Market}
  {o : Order} {ref : Ref}

/-- The markets of `e` are those of `e₀` with the orders of `rows` and no others. -/
structure HoldsRows (e₀ e : Engine) (rows : List OrderRow) : Prop where
  confs : ∀ name, (dictFind e.markets name).map Market.toMarketConf =
    (dictFind e₀.markets name).map Market.toMarketConf
  index : ∀ {name m}, dictFind e.markets name = some m → IndexInv m e.world.heap
  rests : ∀ {name m}, dictFind e.markets name = some m → ∀ {o},
    (∃ ref, m.Rests e.world.heap ref o) ↔
      ∃ row ∈ rows, row.market = name ∧ o = (row.load m.toMarketConf).placed
  below : ∀ {name m}, dictFind e.markets name = some m → ∀ {ref o},
    m.Rests e.world.heap ref o → ref < e.world.nextRef
  balances : e.world.ledger.balances = e₀.world.ledger.balances
  orderIdStart : e.world.orderIdStart = e₀.world.orderIdStart
  exact : (∀ row ∈ rows, ∀ m, dictFind e₀.markets row.market = some m →
    SigDigits mpdCtx (row.load m.toMarketConf).frozen) →
      e₀.world.ledger.exact = true → e.world.ledger.exact = true

omit [Settings] in
/-- With no rows read the markets have no orders. -/
theorem HoldsRows.nil (index : ∀ {name m}, dictFind e₀.markets name = some m →
      IndexInv m e₀.world.heap)
    (none_ : ∀ {name m ref o}, dictFind e₀.markets name = some m →
      ¬ m.Rests e₀.world.heap ref o) : HoldsRows e₀ e₀ [] where
  confs _ := rfl
  index := index
  rests := by
    intro name m found o
    constructor
    · rintro ⟨ref, rests⟩
      exact absurd rests (none_ found)
    · rintro ⟨row, member, _⟩
      cases member
  below := fun found _ _ rests => absurd rests (none_ found)
  balances := rfl
  orderIdStart := rfl
  exact _ exact := exact

/-- Without balances nothing can be frozen. -/
theorem balanceFreeze_of_empty {l : Ledger} (empty : l.balances = ∅) (userId : ℕ) (asset : String)
    (amount : Mpd) : balanceFreeze l userId asset amount = (none, l) := by
  have absent : balanceGet l ⟨userId, .available, asset⟩ = none := by
    rw [balanceGet, empty, dictFind_empty]
  unfold balanceFreeze balanceMove
  rw [absent]
  split
  · rfl
  · split <;> rfl

omit [Settings] in
theorem World.place_balances (w : World) (order : Order) :
    (w.place order).ledger.balances = w.ledger.balances := by
  unfold World.place World.observeFreeze
  cases order.side <;> rfl

omit [Settings] in
/-- The product for a bid is exact when 34 digits can write it. -/
theorem World.place_exact {w : World} {order : Order} (price : order.price.isFinite)
    (left : order.left.isFinite) (digits : SigDigits mpdCtx order.frozen)
    (exact : w.ledger.exact = true) : (w.place order).ledger.exact = true := by
  unfold World.place World.observeFreeze
  unfold Order.frozen at digits
  cases side : order.side with
  | ask => exact exact
  | bid =>
      rw [side] at digits
      rw [World.store_ledger, World.observe_ledger, Ledger.exact_observe]
      exact ⟨exact, (mpdMul_exact_iff price left).mpr digits⟩

omit [Libmpdec] [Settings] in
/-- A row of another market changes nothing about the rows of a market. -/
theorem exists_row_append (other : row.market ≠ name) (p : OrderRow → Prop) :
    (∃ row' ∈ rows ++ [row], row'.market = name ∧ p row') ↔
      ∃ row' ∈ rows, row'.market = name ∧ p row' := by
  constructor
  · rintro ⟨row', member, named, same⟩
    rcases List.mem_append.mp member with before | last
    · exact ⟨row', before, named, same⟩
    · rw [List.mem_singleton.mp last] at named
      exact absurd named other
  · rintro ⟨row', member, named, same⟩
    exact ⟨row', List.mem_append_left _ member, named, same⟩

omit [Settings] in
/-- A row whose market is not configured is passed over. -/
theorem HoldsRows.skip (holds : HoldsRows e₀ e rows)
    (market : dictFind e.markets row.market = none) :
    HoldsRows e₀ e (rows ++ [row]) := by
  refine { holds with rests := ?_, exact := ?_ }
  · intro name m found o
    have other : row.market ≠ name := by
      rintro rfl
      rw [found] at market
      cases market
    rw [holds.rests found, exists_row_append other]
  · intro digits
    exact holds.exact fun row member => digits row (List.mem_append_left _ member)

/-- The order of a row is put into its market `m`, and nothing is frozen. -/
structure PutsRow (e : Engine) (row : OrderRow) (m m' : Market) (w : World) : Prop where
  load : loadOrderRow e row =
    { e with world := w, markets := dictReplace e.markets row.market m' }
  conf : m'.toMarketConf = m.toMarketConf
  index : IndexInv m' w.heap
  rests : ∀ {x o}, m'.Rests w.heap x o ↔
    (x = e.world.nextRef ∧ o = (row.load m.toMarketConf).placed) ∨ m.Rests e.world.heap x o
  beside : ∀ {name n}, dictFind e.markets name = some n → ∀ {x o},
    n.Rests w.heap x o ↔ n.Rests e.world.heap x o
  nextRef : w.nextRef = e.world.nextRef + 1
  balances : w.ledger.balances = e.world.ledger.balances
  orderIdStart : w.orderIdStart = e.world.orderIdStart
  exact : SigDigits mpdCtx (row.load m.toMarketConf).frozen →
    e.world.ledger.exact = true → w.ledger.exact = true

/-- A row whose market is configured is put into it. -/
theorem HoldsRows.puts (holds : HoldsRows e₀ e rows) (empty : e₀.world.ledger.balances = ∅)
    (limit : row.type = .limit) (fresh : ∀ other ∈ rows, other.id ≠ row.id)
    (market : dictFind e.markets row.market = some m) : ∃ m' w, PutsRow e row m m' w := by
  let order := row.load m.toMarketConf
  have unused : ∀ side, e.world.nextRef ∉ m.book side := by
    intro side member
    rcases (holds.index market).rests_of_mem member with ⟨o, rests, _⟩
    exact absurd (holds.below market rests) (lt_irrefl _)
  have distinct : ∀ {x o}, m.Rests e.world.heap x o → o.id ≠ order.id := by
    intro x o rests
    rcases (holds.rests market).mp ⟨x, rests⟩ with ⟨row', member, _, rfl⟩
    exact fresh row' member
  have isLimit : order.type = .limit := limit
  rcases orderPut_spec (holds.index market) isLimit columnDecimal_isFinite unused distinct with
    ⟨m', put, adds, index⟩
  have placed : (e.world.place order).ledger.balances = ∅ := by
    rw [World.place_balances, holds.balances, empty]
  rw [balanceFreeze_of_empty placed] at put
  let w := (e.world.place order).discard (none, (e.world.place order).ledger)
  have heap : w.heap = Function.update e.world.heap e.world.nextRef (some order.placed) :=
    World.place_heap e.world order
  have result : marketPutOrder m e.world order = (false, m', w) := put
  -- the orders that are there stay where they are
  have same {name : String} {n : Market} (found : dictFind e.markets name = some n) {x : Ref}
      {o : Order} (member : x ∈ n.book o.side) : w.heap x = e.world.heap x := by
    rw [heap, Function.update_of_ne]
    rintro rfl
    rcases (holds.index found).rests_of_mem member with ⟨o', rests, _⟩
    exact absurd (holds.below found rests) (lt_irrefl _)
  have beside {name : String} {n : Market} (found : dictFind e.markets name = some n)
      {x : Ref} {o : Order} : n.Rests w.heap x o ↔ n.Rests e.world.heap x o := by
    constructor
    · rintro ⟨live, member⟩
      exact ⟨(same found member).symm.trans live, member⟩
    · rintro ⟨live, member⟩
      exact ⟨(same found member).trans live, member⟩
  have counters := World.observeFreeze_sameOrders
    { e.world.store e.world.nextRef order with nextRef := e.world.nextRef + 1 } order
  refine ⟨m', w, ?_, adds.conf, index, ?_, beside, World.place_nextRef e.world order,
    World.place_balances e.world order, counters.orderIdStart,
    World.place_exact columnDecimal_isFinite columnDecimal_isFinite⟩
  · unfold loadOrderRow
    simp only [market, show row.load m.toMarketConf = order from rfl, result]
  · intro x o
    rw [← beside market]
    apply adds.rests
    rw [heap, Function.update_self]

namespace PutsRow

variable {m' n : Market} {w : World}

omit [Libmpdec] [Settings] in
/-- The market that is found under a name afterwards. -/
theorem find_cases (found : dictFind (dictReplace e.markets row.market m') name = some n) :
    row.market = name ∧ m' = n ∨ row.market ≠ name ∧ dictFind e.markets name = some n := by
  by_cases own : row.market = name
  · subst own
    rw [dictFind_replace] at found
    exact Or.inl ⟨rfl, Option.some.inj found⟩
  · rw [dictFind_replace_ne (Ne.symm own)] at found
    exact Or.inr ⟨own, found⟩

/-- The orders of the market a row is for. -/
theorem rests_iff (puts : PutsRow e row m m' w) (holds : HoldsRows e₀ e rows)
    (market : dictFind e.markets row.market = some m) :
    (∃ x, m'.Rests w.heap x o) ↔ ∃ row' ∈ rows ++ [row], row'.market = row.market ∧
      o = (row'.load m'.toMarketConf).placed := by
  rw [puts.conf]
  constructor
  · rintro ⟨x, rests⟩
    rcases puts.rests.mp rests with ⟨_, rfl⟩ | before
    · exact ⟨row, by simp, rfl, rfl⟩
    · rcases (holds.rests market).mp ⟨x, before⟩ with ⟨row', member, named, rfl⟩
      exact ⟨row', List.mem_append_left _ member, named, rfl⟩
  · rintro ⟨row', member, named, rfl⟩
    rcases List.mem_append.mp member with before | last
    · rcases (holds.rests market).mpr ⟨row', before, named, rfl⟩ with ⟨x, rests⟩
      exact ⟨x, puts.rests.mpr (Or.inr rests)⟩
    · rw [List.mem_singleton.mp last]
      exact ⟨e.world.nextRef, puts.rests.mpr (Or.inl ⟨rfl, rfl⟩)⟩

theorem holdsRows (puts : PutsRow e row m m' w) (holds : HoldsRows e₀ e rows)
    (market : dictFind e.markets row.market = some m) :
    HoldsRows e₀ (loadOrderRow e row) (rows ++ [row]) := by
  rw [puts.load]
  constructor
  · intro name
    by_cases own : name = row.market
    · subst own
      rw [dictFind_replace, Option.map_some, puts.conf, ← holds.confs, market, Option.map_some]
    · rw [dictFind_replace_ne own, holds.confs]
  · intro name n found
    rcases find_cases found with ⟨rfl, rfl⟩ | ⟨_, found'⟩
    · exact puts.index
    · apply (holds.index found').rekey
      intro x o rests
      exact ⟨o, ((puts.beside found').mpr rests).1, .refl o⟩
  · intro name n found o
    rcases find_cases found with ⟨rfl, rfl⟩ | ⟨other, found'⟩
    · exact puts.rests_iff holds market
    · simp only [puts.beside found']
      rw [holds.rests found', exists_row_append other]
  · intro name n found x o rests
    change x < w.nextRef
    rw [puts.nextRef]
    rcases find_cases found with ⟨rfl, rfl⟩ | ⟨_, found'⟩
    · rcases puts.rests.mp rests with ⟨rfl, _⟩ | before
      · exact Nat.lt_succ_self _
      · exact Nat.lt_succ_of_lt (holds.below market before)
    · exact Nat.lt_succ_of_lt (holds.below found' ((puts.beside found').mp rests))
  · exact puts.balances.trans holds.balances
  · exact puts.orderIdStart.trans holds.orderIdStart
  · intro digits start
    have conf := holds.confs row.market
    rw [market] at conf
    rcases Option.map_eq_some_iff.mp conf.symm with ⟨m₀, known, sameConf⟩
    have own := digits row (by simp) m₀ known
    rw [sameConf] at own
    exact puts.exact own
      (holds.exact (fun row' member => digits row' (List.mem_append_left _ member)) start)

end PutsRow

/-- One more row is one more order, unless its market is not configured. -/
theorem HoldsRows.load (holds : HoldsRows e₀ e rows) (empty : e₀.world.ledger.balances = ∅)
    (limit : row.type = .limit) (fresh : ∀ other ∈ rows, other.id ≠ row.id) :
    HoldsRows e₀ (loadOrderRow e row) (rows ++ [row]) := by
  cases market : dictFind e.markets row.market with
  | none =>
      have same : loadOrderRow e row = e := by
        unfold loadOrderRow
        rw [market]
      rw [same]
      exact holds.skip market
  | some m =>
      rcases holds.puts empty limit fresh market with ⟨m', w, puts⟩
      exact puts.holdsRows holds market

/-- The whole table. -/
theorem HoldsRows.loadAll (holds : HoldsRows e₀ e rows) (empty : e₀.world.ledger.balances = ∅)
    {more : List OrderRow} (limit : ∀ row ∈ more, row.type = .limit)
    (distinct : ((rows ++ more).map OrderRow.id).Nodup) :
    HoldsRows e₀ (more.foldl loadOrderRow e) (rows ++ more) := by
  induction more generalizing e rows with
  | nil => rwa [List.append_nil]
  | cons row more ih =>
      have fresh : ∀ other ∈ rows, other.id ≠ row.id := by
        intro other member
        rw [List.map_append, List.nodup_append] at distinct
        exact distinct.2.2 _ (List.mem_map_of_mem member) _
          (List.mem_map_of_mem List.mem_cons_self)
      have loaded := holds.load empty (limit row List.mem_cons_self) fresh
      have split : rows ++ row :: more = rows ++ [row] ++ more := by simp
      rw [split] at distinct ⊢
      exact ih loaded (fun other member => limit other (List.mem_cons_of_mem _ member)) distinct

omit [Settings] in
/-- The rows in another order are the same orders. -/
theorem HoldsRows.perm (holds : HoldsRows e₀ e rows) {other : List OrderRow}
    (perm : rows.Perm other) : HoldsRows e₀ e other := by
  refine { holds with rests := ?_, exact := ?_ }
  · intro name m found o
    rw [holds.rests found]
    simp only [perm.mem_iff]
  · intro digits
    exact holds.exact fun row member => digits row (perm.mem_iff.mp member)

/-- Markets without orders take in every row of the table of their name. -/
theorem loadOrders_spec {d : SliceDb} {time : ℕ} (table : d.orders time = some rows)
    (index : ∀ {name m}, dictFind e₀.markets name = some m → IndexInv m e₀.world.heap)
    (none_ : ∀ {name m ref o}, dictFind e₀.markets name = some m →
      ¬ m.Rests e₀.world.heap ref o)
    (empty : e₀.world.ledger.balances = ∅) (limit : ∀ row ∈ rows, row.type = .limit)
    (distinct : (rows.map OrderRow.id).Nodup) (positive : ∀ row ∈ rows, 0 < row.id) :
    ∃ e, loadOrders d time e₀ = some e ∧ HoldsRows e₀ e rows := by
  have perm := orderBy_perm OrderRow.id rows
  refine ⟨(orderBy OrderRow.id rows).foldl loadOrderRow e₀, ?_, ?_⟩
  · unfold loadOrders
    rw [table, Option.map_some]
    exact congrArg some (readTable_orderBy distinct (by decide) positive e₀)
  · have nil : HoldsRows e₀ e₀ [] := .nil index none_
    have limits : ∀ row ∈ orderBy OrderRow.id rows, row.type = .limit :=
      fun row member => limit row (perm.mem_iff.mp member)
    have all := nil.loadAll empty limits ((perm.map OrderRow.id).nodup_iff.mpr distinct)
    exact all.perm perm

/-! ## Balances -/

/-- The key of the balance a row is for. -/
def BalanceRow.key (row : BalanceRow) : BalanceKey :=
  ⟨row.userId, row.type, row.asset⟩

/-- What the balance of a row is set to. -/
def BalanceRow.loaded (row : BalanceRow) : ℚ :=
  truncateAt (-assetPrec row.asset) (readDecimal balanceScale row.balance).value

omit [Libmpdec] [Settings] in
/-- The rows of entries, in their order and numbered one after the other. -/
theorem balanceRows_spec {id : ℕ} {entries : List BalanceEntry} {rows : List BalanceRow}
    (made : balanceRows id entries = some rows) :
    List.Forall₂ (fun entry row => row.key = entry.1 ∧
        storeDecimal balanceScale entry.2 = some row.balance) entries rows ∧
      rows.map BalanceRow.id = List.range' id entries.length := by
  induction entries generalizing id rows with
  | nil =>
      cases made
      exact ⟨.nil, rfl⟩
  | cons entry rest ih =>
      simp only [balanceRows, Option.bind_eq_bind, Option.bind_eq_some_iff] at made
      rcases made with ⟨row, first, others, later, same⟩
      obtain rfl := Option.some.inj same
      rcases ih later with ⟨stored, ids⟩
      unfold balanceRow at first
      split at first
      · rcases Option.map_eq_some_iff.mp first with ⟨units, written, rfl⟩
        refine ⟨.cons ⟨rfl, written⟩ stored, ?_⟩
        rw [List.map_cons, ids, List.length_cons, List.range'_succ]
      · cases first

omit [Libmpdec] [Settings] in
theorem balanceRows_keys {id : ℕ} {entries : List BalanceEntry} {rows : List BalanceRow}
    (made : balanceRows id entries = some rows) :
    rows.map BalanceRow.key = entries.map Prod.fst := by
  have stored := (balanceRows_spec made).1
  clear made
  induction stored with
  | nil => rfl
  | cons first _ ih => rw [List.map_cons, List.map_cons, first.1, ih]

omit [Settings] in
theorem columnDecimal_nonneg {scale : ℕ} {prec units : ℤ} (nonneg : 0 ≤ units) :
    0 ≤ (columnDecimal scale prec units).value := by
  have read : 0 ≤ (readDecimal scale units).value := by
    rw [readDecimal, Mpd.value_ofScaled]
    positivity
  unfold columnDecimal
  split
  · rw [Libmpdec.rescale_value _ readDecimal_isFinite]
    exact truncateAt_nonneg read
  · exact read

/-- A row a balance can be set from. -/
structure BalanceRow.Ok (row : BalanceRow) : Prop where
  known : ∃ type, getAssetType row.asset = some type ∧ 0 ≤ type.precSave
  nonneg : 0 ≤ row.balance

/-- One row sets one balance. -/
theorem loadBalanceRow_spec {row : BalanceRow} (sound : e.world.ledger.Sound) (ok : row.Ok) :
    ∃ l, loadBalanceRow e row = { e with world := { e.world with ledger := l } } ∧
      e.world.ledger.Posts l (Finsupp.single row.key (row.loaded - e.world.ledger.holds row.key)) ∧
      l.exact = e.world.ledger.exact := by
  rcases ok with ⟨⟨type, known, prec⟩, nonneg⟩
  have exist : assetExist row.asset = true := by
    unfold assetExist
    rw [known]
    rfl
  have asset : getAssetType row.key.asset = some type := known
  have nonneg' : 0 ≤ (columnDecimal balanceScale (assetPrec row.asset) row.balance).value :=
    columnDecimal_nonneg nonneg
  rcases balanceSet_posts sound asset prec columnDecimal_isFinite nonneg' with
    ⟨result, l, set, posts⟩
  refine ⟨l, ?_, ?_, ?_⟩
  · unfold loadBalanceRow
    have set' : balanceSet e.world.ledger ⟨row.userId, row.type, row.asset⟩
        (columnDecimal balanceScale (assetPrec row.asset) row.balance) = (some result, l) := set
    simp only [if_pos exist, set']
  · have same := truncateAt_columnDecimal balanceScale (assetPrec row.asset) row.balance
    rw [← assetPrec_of_some known, same] at posts
    exact posts
  · have exact := balanceSet_exact e.world.ledger row.key
      (columnDecimal balanceScale (assetPrec row.asset) row.balance)
    rwa [set] at exact

/-- What the rows of a table leave in the ledger. -/
structure LoadsBalances (l l' : Ledger) (rows : List BalanceRow) : Prop where
  sound : l'.Sound
  exact : l'.exact = l.exact
  inside : ∀ row ∈ rows, l'.holds row.key = row.loaded
  outside : ∀ key, (∀ row ∈ rows, row.key ≠ key) → l'.holds key = l.holds key

theorem loadBalanceRows_spec {rows : List BalanceRow} (sound : e.world.ledger.Sound)
    (ok : ∀ row ∈ rows, row.Ok) (distinct : (rows.map BalanceRow.key).Nodup) :
    ∃ l, rows.foldl loadBalanceRow e = { e with world := { e.world with ledger := l } } ∧
      LoadsBalances e.world.ledger l rows := by
  induction rows generalizing e with
  | nil => exact ⟨e.world.ledger, rfl, sound, rfl, by simp, fun _ _ => rfl⟩
  | cons row rest ih =>
      rcases loadBalanceRow_spec sound (ok row List.mem_cons_self) with ⟨l, loaded, posts, exact⟩
      rw [List.map_cons, List.nodup_cons] at distinct
      rcases ih (e := { e with world := { e.world with ledger := l } }) posts.sound
        (fun other member => ok other (List.mem_cons_of_mem _ member)) distinct.2 with
        ⟨l', folded, loads⟩
      have own : ∀ other ∈ rest, other.key ≠ row.key := by
        intro other member same
        exact distinct.1 (same ▸ List.mem_map_of_mem member)
      have first : l.holds row.key = row.loaded := by
        rw [posts.holds, Finsupp.single_eq_same]
        ring
      refine ⟨l', ?_, loads.sound, loads.exact.trans exact, ?_, ?_⟩
      · rw [List.foldl_cons, loaded, folded]
      · intro other member
        rcases List.mem_cons.mp member with rfl | later
        · exact (loads.outside _ own).trans first
        · exact loads.inside other later
      · intro key apart
        have differ : row.key ≠ key := apart row List.mem_cons_self
        rw [loads.outside key fun other member => apart other (List.mem_cons_of_mem _ member),
          posts.holds, Finsupp.single_eq_of_ne differ.symm, add_zero]

theorem loadBalance_spec {d : SliceDb} {time : ℕ} {rows : List BalanceRow}
    (table : d.balances time = some rows) (sound : e.world.ledger.Sound)
    (ok : ∀ row ∈ rows, row.Ok) (ids : (rows.map BalanceRow.id).Nodup)
    (positive : ∀ row ∈ rows, 0 < row.id) (distinct : (rows.map BalanceRow.key).Nodup) :
    ∃ l, loadBalance d time e = some { e with world := { e.world with ledger := l } } ∧
      LoadsBalances e.world.ledger l rows := by
  have perm := orderBy_perm BalanceRow.id rows
  have each : ∀ row ∈ orderBy BalanceRow.id rows, row.Ok :=
    fun row member => ok row (perm.mem_iff.mp member)
  rcases loadBalanceRows_spec sound each ((perm.map BalanceRow.key).nodup_iff.mpr distinct) with
    ⟨l, folded, loads⟩
  refine ⟨l, ?_, loads.sound, loads.exact, ?_, ?_⟩
  · unfold loadBalance
    rw [table, Option.map_some, readTable_orderBy ids (by decide) positive, folded]
  · exact fun row member => loads.inside row (perm.mem_iff.mpr member)
  · exact fun key apart => loads.outside key fun row member => apart row (perm.mem_iff.mp member)

end ViabtcServer.MatchEngine
