import ViabtcServer.Container.Paging
import ViabtcServer.Decimal.Scientific
import ViabtcServer.MatchEngine.Depth
import ViabtcServer.MatchEngine.HistorySql
import ViabtcServer.MatchEngine.Lifetime

/-!
# The queries for orders

A client sees the open orders of a market in three ways: page by page through a side of
the book, page by page through the orders of one user, and one by one by id. The three
show the same orders, each with the same text.
-/

namespace ViabtcServer.MatchEngine

open Decimal Container
open MarketPrice (mpdText)

/-! ## The handlers -/

/-- `ORDER_LIST_MAX_LEN`. -/
def orderListMaxLen : ℕ := 101

/-- The first loop of a page: `offset` orders are passed while there are any. -/
def passOrders : ℕ → List Order → List Order
  | 0, orders => orders
  | _, [] => []
  | offset + 1, _ :: rest => passOrders offset rest

/-- The second loop: the next order is shown while there is one and the page has room. -/
def showOrders : ℕ → List Order → List Order
  | _, [] => []
  | 0, _ => []
  | room + 1, order :: rest => order :: showOrders room rest

/-- A page of orders: `total` is the length of the list it is cut from. -/
structure OrderPage where
  offset : ℕ
  limit : ℕ
  total : ℕ
  orders : List Order

/-- The page of a list of orders that starts at `offset`. -/
def orderPage (heap : Ref → Option Order) (list : List Ref) (offset limit : ℕ) : OrderPage where
  offset := offset
  limit := limit
  total := list.length
  orders :=
    if offset < list.length then showOrders limit (passOrders offset (list.filterMap heap)) else []

/-- The page of the orders of a user; a user without list has none. -/
def userPage (m : Market) (heap : Ref → Option Order) (userId offset limit : ℕ) : OrderPage :=
  match marketGetOrderList m userId with
  | none => ⟨offset, limit, 0, []⟩
  | some list => orderPage heap list offset limit

section Handlers

variable [DecimalText]

/-- `get_order_info`. A source that is `NULL` is not set. -/
def getOrderInfo (order : Order) : Json :=
  .object
    ([("id", .integer (ofUint64 order.id)), ("market", .string order.market)] ++
      (order.source.map fun source => ("source", Json.string source)).toList ++
      [("type", .integer order.type.code), ("side", .integer order.side.code),
        ("user", .integer order.userId),
        ("ctime", .real ((order.createTime : ℚ) / 1000000)),
        ("mtime", .real ((order.updateTime : ℚ) / 1000000)),
        ("price", .string (mpdText order.price)), ("amount", .string (mpdText order.amount)),
        ("taker_fee", .string (mpdText order.takerFee)),
        ("maker_fee", .string (mpdText order.makerFee)), ("left", .string (mpdText order.left)),
        ("deal_stock", .string (mpdText order.dealStock)),
        ("deal_money", .string (mpdText order.dealMoney)),
        ("deal_fee", .string (mpdText order.dealFee))])

/-- The object `on_cmd_order_query` answers with. -/
def OrderPage.queryJson (page : OrderPage) : Json :=
  .object [("limit", .integer (ofUint64 page.limit)), ("offset", .integer (ofUint64 page.offset)),
    ("total", .integer (ofUint64 page.total)),
    ("records", .array (page.orders.map getOrderInfo))]

/-- The object `on_cmd_order_book` answers with. -/
def OrderPage.bookJson (page : OrderPage) : Json :=
  .object [("offset", .integer (ofUint64 page.offset)), ("limit", .integer (ofUint64 page.limit)),
    ("total", .integer (ofUint64 page.total)), ("orders", .array (page.orders.map getOrderInfo))]

/-- `on_cmd_order_query`. -/
def onCmdOrderQuery (e : Engine) (params : List Json) : Except ArgError Json :=
  match params with
  | [user, market, offset, limit] => do
      let user ← jsonInteger user
      let (_, m) ← getMarket e.markets market
      let offset ← jsonInteger offset
      let limit ← jsonInteger limit
      if toUint64 limit > orderListMaxLen then .error .invalid
      else
        pure (userPage m e.world.heap (toUint32 user) (toUint64 offset) (toUint64 limit)).queryJson
  | _ => .error .invalid

/-- `on_cmd_order_book`. -/
def onCmdOrderBook (e : Engine) (params : List Json) : Except ArgError Json :=
  match params with
  | [market, side, offset, limit] => do
      let (_, m) ← getMarket e.markets market
      let side ← jsonSide side
      let offset ← jsonInteger offset
      let limit ← jsonInteger limit
      if toUint64 limit > orderBookMaxLen then .error .invalid
      else pure (orderPage e.world.heap (m.book side) (toUint64 offset) (toUint64 limit)).bookJson
  | _ => .error .invalid

/-- `on_cmd_order_detail`. -/
def onCmdOrderDetail (e : Engine) (params : List Json) : Except ArgError Json :=
  match params with
  | [market, orderId] => do
      let (_, m) ← getMarket e.markets market
      let orderId ← jsonInteger orderId
      match marketGetOrder m e.world (toUint64 orderId) with
      | none => pure .null
      | some (_, order) => pure (getOrderInfo order)
  | _ => .error .invalid

end Handlers

/-! ## Pages -/

theorem passOrders_eq (offset : ℕ) (orders : List Order) :
    passOrders offset orders = orders.drop offset := by
  induction orders generalizing offset with
  | nil => cases offset <;> rfl
  | cons order rest ih =>
      cases offset with
      | zero => rfl
      | succ offset => exact ih offset

theorem showOrders_eq (room : ℕ) (orders : List Order) :
    showOrders room orders = orders.take room := by
  induction orders generalizing room with
  | nil => cases room <;> rfl
  | cons order rest ih =>
      cases room with
      | zero => rfl
      | succ room => exact congrArg (order :: ·) (ih room)

variable {heap : Ref → Option Order} {list : List Ref} {m : Market} {e e₀ : Engine} {name : String}

/-- No order of the list has been freed. -/
def AllLive (heap : Ref → Option Order) (list : List Ref) : Prop :=
  ∀ ref ∈ list, (heap ref).isSome

theorem AllLive.length (live : AllLive heap list) : (list.filterMap heap).length = list.length := by
  induction list with
  | nil => rfl
  | cons ref rest ih =>
      rcases Option.isSome_iff_exists.mp (live ref List.mem_cons_self) with ⟨order, found⟩
      have rest := ih fun ref mem => live ref (List.mem_cons_of_mem _ mem)
      rw [List.filterMap_cons_some found, List.length_cons, List.length_cons, rest]

theorem orderPage_eq (live : AllLive heap list) (offset limit : ℕ) :
    orderPage heap list offset limit =
      ⟨offset, limit, (list.filterMap heap).length,
        offsetPage offset limit (list.filterMap heap)⟩ := by
  unfold orderPage offsetPage
  rw [passOrders_eq, showOrders_eq, live.length]
  congr 1
  split
  · rfl
  · rename_i beyond
    have past : (list.filterMap heap).drop offset = [] :=
      List.drop_eq_nil_of_le (live.length ▸ Nat.not_lt.mp beyond)
    rw [past, List.take_nil]

theorem userPage_eq (live : AllLive heap (m.userList user)) (offset limit : ℕ) :
    userPage m heap user offset limit =
      ⟨offset, limit, ((m.userList user).filterMap heap).length,
        offsetPage offset limit ((m.userList user).filterMap heap)⟩ := by
  unfold userPage
  cases found : marketGetOrderList m user with
  | none =>
      have none_ : m.userList user = [] := by
        unfold Market.userList
        rw [← marketGetOrderList, found]
        rfl
      simp [none_, offsetPage]
  | some list =>
      have same : m.userList user = list := by
        unfold Market.userList
        rw [← marketGetOrderList, found]
        rfl
      rw [same] at live ⊢
      exact orderPage_eq live offset limit

/-! ## What a client reads -/

theorem toUint64_natCast {n : ℕ} (small : n < 2 ^ 64) : toUint64 (n : ℤ) = n := by
  unfold toUint64
  omega

theorem toUint64_ofUint64 {n : ℕ} (small : n < 2 ^ 64) : toUint64 (ofUint64 n) = n := by
  unfold toUint64 ofUint64
  split <;> omega

theorem toUint32_natCast {n : ℕ} (small : n < 2 ^ 32) : toUint32 (n : ℤ) = n := by
  unfold toUint32
  omega

/-! ### The lists -/

theorem IndexInv.mem_userOrders (index : IndexInv m heap) {user : ℕ} {o : Order} :
    o ∈ (m.userList user).filterMap heap ↔ ∃ ref, m.Rests heap ref o ∧ o.userId = user := by
  rw [List.mem_filterMap]
  constructor
  · rintro ⟨ref, member, found⟩
    rcases index.users.mp member with ⟨o', rests, own⟩
    have same : o' = o := rests.eq found
    subst same
    exact ⟨ref, rests, own⟩
  · rintro ⟨ref, rests, own⟩
    exact ⟨ref, index.users.mpr ⟨o, rests, own⟩, rests.1⟩

/-- The orders of a user come newest first. -/
theorem IndexInv.userOrders_sorted (index : IndexInv m heap) (user : ℕ) :
    ((m.userList user).filterMap heap).Pairwise fun one other => other.id < one.id := by
  apply List.pairwise_filterMap.mpr
  apply (index.userSorted user).imp
  intro ref ref' newer o found o' found'
  rwa [newestAt_of_some found, newestAt_of_some found', OrderDual.toDual_lt_toDual] at newer

theorem IndexInv.book_live (index : IndexInv m heap) (side : Side) :
    AllLive heap (m.book side) := by
  intro ref mem
  rcases index.rests_of_mem mem with ⟨o, rests, _⟩
  rw [rests.1]
  rfl

theorem IndexInv.userList_live (index : IndexInv m heap) (user : ℕ) :
    AllLive heap (m.userList user) := by
  intro ref mem
  rcases index.users.mp mem with ⟨o, rests, _⟩
  rw [rests.1]
  rfl

/-! ### The answers -/

/-- The answers to every offset and page size: the orders from the offset on, as many as the
page has room for. A client that asks for one page after the other reads all of them. -/
structure ServesPages (ask : ℤ → ℤ → Except ArgError Json) (json : OrderPage → Json)
    (maxLen : ℕ) (orders : List Order) : Prop where
  cut : ∀ {offset limit}, toUint64 limit ≤ maxLen → ask offset limit =
    .ok (json ⟨toUint64 offset, toUint64 limit, orders.length,
      (orders.drop (toUint64 offset)).take (toUint64 limit)⟩)
  refused : ∀ {offset limit}, maxLen < toUint64 limit → ask offset limit = .error .invalid
  pages : ∀ {limit : ℕ}, 0 < limit → limit ≤ maxLen → ∃ pages : List (List Order),
    pages.flatten = orders ∧ (∀ page ∈ pages, page.length ≤ limit) ∧
    ∀ {i page}, pages[i]? = some page → i * limit < 2 ^ 64 →
      ask (ofUint64 (i * limit)) limit = .ok (json ⟨i * limit, limit, orders.length, page⟩)

/-- Answers cut from one list serve its pages. -/
theorem ServesPages.of_cut {ask : ℤ → ℤ → Except ArgError Json} {json : OrderPage → Json}
    {maxLen : ℕ} {orders : List Order} (small : maxLen < 2 ^ 64)
    (cut : ∀ {offset limit}, toUint64 limit ≤ maxLen → ask offset limit =
      .ok (json ⟨toUint64 offset, toUint64 limit, orders.length,
        offsetPage (toUint64 offset) (toUint64 limit) orders⟩))
    (refused : ∀ {offset limit}, maxLen < toUint64 limit → ask offset limit = .error .invalid) :
    ServesPages ask json maxLen orders where
  cut := cut
  refused := refused
  pages {limit} pos le := by
    have limit64 : toUint64 (limit : ℤ) = limit := toUint64_natCast (le.trans_lt small)
    refine ⟨pagesOf limit orders, flatten_pagesOf pos, ?_, ?_⟩
    · intro page mem
      rcases List.mem_iff_getElem?.mp mem with ⟨i, found⟩
      rw [(mem_pagesOf found).1]
      exact length_offsetPage_le _
    · intro i page found inside
      have answer := @cut (ofUint64 (i * limit)) limit (limit64.symm ▸ le)
      rwa [toUint64_ofUint64 inside, limit64, ← (mem_pagesOf found).1] at answer

section Views

variable [DecimalText]

/-- The three ways to look at the orders of a market: each shows those that rest, each of
them once, in its order. -/
structure OrderViews (e : Engine) (name : String) (m : Market) : Prop where
  book : ∀ side, ∃ orders,
    ServesPages (fun offset limit =>
      onCmdOrderBook e [.string name, .integer side.code, .integer offset, .integer limit])
      OrderPage.bookJson orderBookMaxLen orders ∧
    (orders.Pairwise fun one other => one.priority < other.priority) ∧
    ∀ o, o ∈ orders ↔ ∃ ref, m.Rests e.world.heap ref o ∧ o.side = side
  user : ∀ user : ℕ, user < 2 ^ 32 → ∃ orders,
    ServesPages (fun offset limit =>
      onCmdOrderQuery e [.integer user, .string name, .integer offset, .integer limit])
      OrderPage.queryJson orderListMaxLen orders ∧
    (orders.Pairwise fun one other => other.id < one.id) ∧
    ∀ o, o ∈ orders ↔ ∃ ref, m.Rests e.world.heap ref o ∧ o.userId = user
  detail : ∀ id : ℕ, id < 2 ^ 64 →
    (∀ {ref o}, m.Rests e.world.heap ref o → o.id = id →
      onCmdOrderDetail e [.string name, .integer (ofUint64 id)] = .ok (getOrderInfo o)) ∧
    ((∀ {ref o}, m.Rests e.world.heap ref o → o.id ≠ id) →
      onCmdOrderDetail e [.string name, .integer (ofUint64 id)] = .ok .null)

theorem onCmdOrderBook_eq (found : dictFind e.markets name = some m) (side : Side)
    (offset limit : ℤ) :
    onCmdOrderBook e [.string name, .integer side.code, .integer offset, .integer limit] =
      if toUint64 limit > orderBookMaxLen then .error .invalid
      else .ok
        (orderPage e.world.heap (m.book side) (toUint64 offset) (toUint64 limit)).bookJson := by
  have side_ : jsonSide (.integer side.code) = .ok side := by cases side <;> rfl
  simp only [onCmdOrderBook, getMarket, jsonString, found, side_, jsonInteger, bind, Except.bind,
    pure, Except.pure]

theorem onCmdOrderQuery_eq (found : dictFind e.markets name = some m) {user : ℕ}
    (small : user < 2 ^ 32) (offset limit : ℤ) :
    onCmdOrderQuery e [.integer user, .string name, .integer offset, .integer limit] =
      if toUint64 limit > orderListMaxLen then .error .invalid
      else .ok (userPage m e.world.heap user (toUint64 offset) (toUint64 limit)).queryJson := by
  have user32 : toUint32 (user : ℤ) = user := toUint32_natCast small
  simp only [onCmdOrderQuery, getMarket, jsonString, found, jsonInteger, user32, bind,
    Except.bind, pure, Except.pure]

theorem onCmdOrderDetail_eq (found : dictFind e.markets name = some m) {id : ℕ}
    (small : id < 2 ^ 64) :
    onCmdOrderDetail e [.string name, .integer (ofUint64 id)] =
      match marketGetOrder m e.world id with
      | none => .ok .null
      | some (_, order) => .ok (getOrderInfo order) := by
  simp only [onCmdOrderDetail, getMarket, jsonString, found, jsonInteger, toUint64_ofUint64 small,
    bind, Except.bind, pure, Except.pure]

variable [Libmpdec] [Settings]

/-- Over all runs and restarts, the pages of a side of a book, put together, are the orders
that rest there in the order they are matched, the pages of a user are the orders of that
user with the newest first, and the query for one order finds the same orders: each way
shows every open order once, and nothing else. -/
theorem order_views (start : Engine.start = some e₀) (reaches : Reaches e₀ e)
    (found : dictFind e.markets name = some m) : OrderViews e name m := by
  have inv := (reaches.sane start).inv.market found
  have index := inv.index
  constructor
  · intro side
    have sorted := index.toBookInv.orders_sorted side
    refine ⟨(m.book side).filterMap e.world.heap, ?_, sorted, fun o => index.toBookInv.mem_orders⟩
    apply ServesPages.of_cut (by decide)
    · intro offset limit le
      rw [onCmdOrderBook_eq found, if_neg (Nat.not_lt.mpr le),
        orderPage_eq (index.book_live side)]
    · intro offset limit more
      rw [onCmdOrderBook_eq found, if_pos more]
  · intro user small
    have sorted := index.userOrders_sorted user
    refine ⟨(m.userList user).filterMap e.world.heap, ?_, sorted, fun o => index.mem_userOrders⟩
    apply ServesPages.of_cut (by decide)
    · intro offset limit le
      rw [onCmdOrderQuery_eq found small, if_neg (Nat.not_lt.mpr le),
        userPage_eq (index.userList_live user)]
    · intro offset limit more
      rw [onCmdOrderQuery_eq found small, if_pos more]
  · intro id small
    rw [onCmdOrderDetail_eq found small]
    constructor
    · intro ref o rests same
      have indexed : dictFind m.orders id = some ref := index.orders.mpr ⟨o, rests, same⟩
      simp [marketGetOrder, indexed, rests.1]
    · intro absent
      have missing : dictFind m.orders id = none := by
        rw [Option.eq_none_iff_forall_ne_some]
        intro ref indexed
        rcases index.orders.mp indexed with ⟨o, rests, same⟩
        exact absent rests same
      simp [marketGetOrder, missing]

end Views

section Small

/-- libmpdec prints in scientific notation. -/
@[reducible]
def sciPrinting : DecimalText where
  mpdToSci a := String.ofList (sciText a)

attribute [local instance] smallSettings Libmpdec.reference sciPrinting

/-- The market of the small engine, with the rest of a bid in it. -/
theorem order_views_small : ∃ m, dictFind smallEngine.markets "BTCCNY" = some m ∧
    OrderViews smallEngine "BTCCNY" m := by
  rcases Option.isSome_iff_exists.mp
    (show (dictFind smallEngine.markets "BTCCNY").isSome by decide +kernel) with ⟨m, found⟩
  exact ⟨m, found, order_views smallStart_eq (.of_run smallEngine_run) found⟩

end Small

end ViabtcServer.MatchEngine
