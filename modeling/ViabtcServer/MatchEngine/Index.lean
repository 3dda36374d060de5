import ViabtcServer.MatchEngine.Book

/-!
# Putting and removing orders

What `order_put` and `order_finish` do to the indexes: the first adds one
resting order, the second takes one away and frees it. No index refers to the
freed address afterwards.
-/

namespace ViabtcServer.MatchEngine

open Decimal Container

/-! ## Frames -/

/-- Addresses, counters and the record of fills are the same. -/
structure World.SameCounters (w w' : World) : Prop where
  nextRef : w'.nextRef = w.nextRef
  orderIdStart : w'.orderIdStart = w.orderIdStart
  dealsIdStart : w'.dealsIdStart = w.dealsIdStart
  fills : w'.fills = w.fills

/-- So are the orders; what may differ are the ledger, the output and how often
a `NULL` was dropped. -/
structure World.SameOrders (w w' : World) : Prop extends World.SameCounters w w' where
  heap : w'.heap = w.heap

theorem World.SameCounters.trans {w w' w'' : World} (one : w.SameCounters w')
    (two : w'.SameCounters w'') : w.SameCounters w'' :=
  ⟨two.nextRef.trans one.nextRef, two.orderIdStart.trans one.orderIdStart,
    two.dealsIdStart.trans one.dealsIdStart, two.fills.trans one.fills⟩

theorem World.SameOrders.refl (w : World) : w.SameOrders w :=
  ⟨⟨rfl, rfl, rfl, rfl⟩, rfl⟩

theorem World.SameOrders.trans {w w' w'' : World} (one : w.SameOrders w')
    (two : w'.SameOrders w'') : w.SameOrders w'' :=
  ⟨one.toSameCounters.trans two.toSameCounters, two.heap.trans one.heap⟩

theorem World.observe_sameOrders (w : World) (result : Mpd) (expected : ℚ) :
    w.SameOrders (w.observe result expected) :=
  ⟨⟨rfl, rfl, rfl, rfl⟩, rfl⟩

theorem World.discard_sameOrders (w : World) (call : Option Mpd × Ledger) :
    w.SameOrders (w.discard call) :=
  ⟨⟨rfl, rfl, rfl, rfl⟩, rfl⟩

theorem World.emit_sameOrders (w : World) (real : Bool) (output : Output) :
    w.SameOrders (w.emit real output) := by
  cases real <;> exact ⟨⟨rfl, rfl, rfl, rfl⟩, rfl⟩

theorem orderFree_sameCounters (w : World) (ref : Ref) : w.SameCounters (orderFree w ref) :=
  ⟨rfl, rfl, rfl, rfl⟩

@[simp]
theorem World.emit_heap (w : World) (real : Bool) (output : Output) :
    (w.emit real output).heap = w.heap :=
  (w.emit_sameOrders real output).heap

@[simp]
theorem World.emit_ledger (w : World) (real : Bool) (output : Output) :
    (w.emit real output).ledger = w.ledger := by
  cases real <;> rfl

@[simp]
theorem World.emit_ignored (w : World) (real : Bool) (output : Output) :
    (w.emit real output).ignored = w.ignored := by
  cases real <;> rfl

@[simp]
theorem World.observe_ledger (w : World) (result : Mpd) (expected : ℚ) :
    (w.observe result expected).ledger = w.ledger.observe result expected := rfl

@[simp]
theorem World.observe_ignored (w : World) (result : Mpd) (expected : ℚ) :
    (w.observe result expected).ignored = w.ignored := rfl

@[simp]
theorem World.observe_heap (w : World) (result : Mpd) (expected : ℚ) :
    (w.observe result expected).heap = w.heap := rfl

@[simp]
theorem World.discard_heap (w : World) (call : Option Mpd × Ledger) :
    (w.discard call).heap = w.heap := rfl

@[simp]
theorem World.discard_ledger (w : World) (call : Option Mpd × Ledger) :
    (w.discard call).ledger = call.2 := rfl

@[simp]
theorem World.store_ledger (w : World) (ref : Ref) (order : Order) :
    (w.store ref order).ledger = w.ledger := rfl

@[simp]
theorem World.store_ignored (w : World) (ref : Ref) (order : Order) :
    (w.store ref order).ignored = w.ignored := rfl

@[simp]
theorem World.store_heap (w : World) (ref : Ref) (order : Order) :
    (w.store ref order).heap = Function.update w.heap ref (some order) := rfl

@[simp]
theorem orderFree_heap (w : World) (ref : Ref) :
    (orderFree w ref).heap = Function.update w.heap ref none := rfl

@[simp]
theorem orderFree_ledger (w : World) (ref : Ref) : (orderFree w ref).ledger = w.ledger := rfl

@[simp]
theorem orderFree_ignored (w : World) (ref : Ref) : (orderFree w ref).ignored = w.ignored := rfl

@[simp]
theorem Market.setBook_toMarketConf (m : Market) (side : Side) (list : List Ref) :
    (m.setBook side list).toMarketConf = m.toMarketConf := by
  cases side <;> rfl

@[simp]
theorem Market.setBook_orders (m : Market) (side : Side) (list : List Ref) :
    (m.setBook side list).orders = m.orders := by
  cases side <;> rfl

@[simp]
theorem Market.setBook_users (m : Market) (side : Side) (list : List Ref) :
    (m.setBook side list).users = m.users := by
  cases side <;> rfl

@[simp]
theorem Market.book_setBook (m : Market) (side : Side) (list : List Ref) :
    (m.setBook side list).book side = list := by
  cases side <;> rfl

theorem Market.book_setBook_ne (m : Market) {side other : Side} (differ : other ≠ side)
    (list : List Ref) : (m.setBook side list).book other = m.book other := by
  cases side <;> cases other <;> first | rfl | exact absurd rfl differ

variable [Libmpdec] {m : Market} {w : World} {ref : Ref} {order o : Order}

/-! ## Putting -/

/-- The order as it rests: its frozen amount is set. -/
def Order.placed (order : Order) : Order :=
  { order with freeze := freezeAmount order }

/-- The world once `order_put` has stored the order, before it freezes. -/
def World.place (w : World) (order : Order) : World :=
  let stored := { w.store w.nextRef order with nextRef := w.nextRef + 1 }
  (stored.observeFreeze order).store w.nextRef order.placed

theorem Order.sameKey_placed (order : Order) : order.SameKey order.placed :=
  ⟨rfl, rfl, rfl, rfl, rfl, rfl⟩

theorem World.observeFreeze_sameOrders (w : World) (order : Order) :
    w.SameOrders (w.observeFreeze order) := by
  unfold observeFreeze
  split
  · exact .refl w
  · exact w.observe_sameOrders _ _

@[simp]
theorem World.place_heap (w : World) (order : Order) :
    (w.place order).heap = Function.update w.heap w.nextRef (some order.placed) := by
  simp [place, (World.observeFreeze_sameOrders _ order).heap]

@[simp]
theorem World.place_nextRef (w : World) (order : Order) :
    (w.place order).nextRef = w.nextRef + 1 :=
  (World.observeFreeze_sameOrders _ order).nextRef

omit [Libmpdec] in
/-- The user's list takes in an order whose id it does not hold. -/
theorem putUser_spec (live : ∀ x ∈ m.userList order.userId, ∃ o, w.heap x = some o)
    (sorted : SortedBy (newestAt w.heap) (m.userList order.userId))
    (found : w.heap ref = some order)
    (fresh : ∀ x ∈ m.userList order.userId, newestAt w.heap x ≠ newestAt w.heap ref) :
    ∃ list, putUser m w order ref =
        some { m with users := dictReplace m.users order.userId list } ∧
      list.Perm (ref :: m.userList order.userId) ∧ SortedBy (newestAt w.heap) list := by
  have ranks : RanksOn (compareAt w.heap orderIdCompare) (newestAt w.heap)
      {x | x = ref ∨ x ∈ m.userList order.userId} := by
    refine orderIdCompare_ranks ?_
    rintro x (rfl | mem)
    · exact ⟨order, found⟩
    · exact live x mem
  obtain ⟨list, inserted, perm, sorted⟩ := skiplistInsert_of_fresh ranks sorted
    (fun x mem => Or.inr mem) (Or.inl rfl) fresh
  refine ⟨list, ?_, perm, sorted⟩
  unfold putUser
  unfold Market.userList at inserted
  cases entry : dictFind m.users order.userId with
  | some old =>
      rw [entry] at inserted
      simp only [Option.getD_some] at inserted
      simp [inserted]
  | none =>
      rw [entry] at inserted
      simp only [Option.getD_none] at inserted
      simp [inserted, dictAdd_of_fresh entry]

/-- `m'` is `m` with the order at `ref` added to every index. -/
structure Market.Adds (m m' : Market) (ref : Ref) (order : Order) : Prop where
  conf : m'.toMarketConf = m.toMarketConf
  book : ∀ side x, x ∈ m'.book side ↔ (side = order.side ∧ x = ref) ∨ x ∈ m.book side
  orders : m'.orders = dictReplace m.orders order.id ref
  users : ∀ user x, x ∈ m'.userList user ↔ (user = order.userId ∧ x = ref) ∨ x ∈ m.userList user

omit [Libmpdec] in
theorem Market.Adds.rests {m' : Market} {heap : Ref → Option Order} (adds : m.Adds m' ref order)
    (found : heap ref = some order) {x : Ref} :
    m'.Rests heap x o ↔ (x = ref ∧ o = order) ∨ m.Rests heap x o := by
  unfold Rests
  rw [adds.book]
  constructor
  · rintro ⟨live, ⟨_, rfl⟩ | mem⟩
    · exact Or.inl ⟨rfl, Option.some.inj (live.symm.trans found)⟩
    · exact Or.inr ⟨live, mem⟩
  · rintro (⟨rfl, rfl⟩ | ⟨live, mem⟩)
    · exact ⟨found, Or.inl ⟨rfl, rfl⟩⟩
    · exact ⟨live, Or.inr mem⟩

omit [Libmpdec] in
/-- Adding an order with a fresh id and address keeps the indexes in step. -/
theorem IndexInv.adds {m' : Market} {heap : Ref → Option Order} (inv : IndexInv m heap)
    (adds : m.Adds m' ref order) (listed : Listed heap order.side ref order)
    (fresh : ∀ {x o}, m.Rests heap x o → o.id ≠ order.id)
    (sorted : ∀ side, SortedBy (priorityAt heap) (m'.book side))
    (userSorted : ∀ user, SortedBy (newestAt heap) (m'.userList user)) : IndexInv m' heap where
  listed {side x} mem := by
    rcases (adds.book side x).mp mem with ⟨rfl, rfl⟩ | mem
    · exact ⟨order, listed⟩
    · exact inv.listed mem
  unique {x y a b} ra rb same := by
    rcases (adds.rests listed.found).mp ra with ⟨rfl, rfl⟩ | ra <;>
      rcases (adds.rests listed.found).mp rb with ⟨rfl, rfl⟩ | rb
    · rfl
    · exact absurd same.symm (fresh rb)
    · exact absurd same (fresh ra)
    · exact inv.unique ra rb same
  sorted := sorted
  orders {id x} := by
    simp only [adds.orders, adds.rests listed.found]
    by_cases new : id = order.id
    · subst new
      rw [dictFind_replace, Option.some.injEq]
      constructor
      · rintro rfl
        exact ⟨order, Or.inl ⟨rfl, rfl⟩, rfl⟩
      · rintro ⟨o, ⟨rfl, rfl⟩ | rests, same⟩
        · rfl
        · exact absurd same (fresh rests)
    · rw [dictFind_replace_ne new, inv.orders]
      constructor
      · rintro ⟨o, rests, same⟩
        exact ⟨o, Or.inr rests, same⟩
      · rintro ⟨o, ⟨rfl, rfl⟩ | rests, same⟩
        · exact absurd same.symm new
        · exact ⟨o, rests, same⟩
  users {user x} := by
    rw [adds.users, inv.users]
    simp only [adds.rests listed.found]
    constructor
    · rintro (⟨rfl, rfl⟩ | ⟨o, rests, same⟩)
      · exact ⟨order, Or.inl ⟨rfl, rfl⟩, rfl⟩
      · exact ⟨o, Or.inr rests, same⟩
    · rintro ⟨o, ⟨rfl, rfl⟩ | rests, rfl⟩
      · exact Or.inl ⟨rfl, rfl⟩
      · exact Or.inr ⟨o, rests, rfl⟩
  userSorted := userSorted

/-- The book takes in a limit order whose id it does not hold. -/
theorem bookInsert_spec (inv : BookInv m w.heap) (listed : Listed w.heap order.side ref order)
    (fresh : ∀ {x o}, m.Rests w.heap x o → o.id ≠ order.id) :
    ∃ list, skiplistInsert (compareAt w.heap orderMatchCompare) (m.book order.side) ref =
        some list ∧
      list.Perm (ref :: m.book order.side) ∧ SortedBy (priorityAt w.heap) list := by
  have known : ∀ {x o}, x = ref ∨ x ∈ m.book order.side → w.heap x = some o →
      (x = ref ∧ o = order) ∨ m.Rests w.heap x o := by
    rintro x o (rfl | mem) found
    · exact Or.inl ⟨rfl, Option.some.inj (found.symm.trans listed.found)⟩
    · obtain ⟨o', rests, _⟩ := inv.rests_of_mem mem
      obtain rfl := rests.eq found
      exact Or.inr rests
  have ranks : RanksOn (compareAt w.heap orderMatchCompare) (priorityAt w.heap)
      {x | x = ref ∨ x ∈ m.book order.side} := by
    refine orderMatchCompare_ranks order.side ?_ ?_
    · rintro x (rfl | mem)
      · exact ⟨order, listed⟩
      · exact inv.listed mem
    · intro x hx y hy a b fa fb same
      rcases known hx fa with ⟨rfl, rfl⟩ | ra <;> rcases known hy fb with ⟨rfl, rfl⟩ | rb
      · rfl
      · exact absurd same.symm (fresh rb)
      · exact absurd same (fresh ra)
      · exact inv.unique ra rb same
  refine skiplistInsert_of_fresh ranks (inv.sorted order.side) (fun x mem => Or.inr mem)
    (Or.inl rfl) ?_
  intro x mem same
  obtain ⟨o, rests, _⟩ := inv.rests_of_mem mem
  rw [priorityAt_of_some rests.1, priorityAt_of_some listed.found] at same
  exact fresh rests (Prod.mk.inj (toLex_inj.mp same)).2

omit [Libmpdec] in
/-- So does the list of its user. -/
theorem IndexInv.putUser_spec (inv : IndexInv m w.heap) (found : w.heap ref = some order)
    (fresh : ∀ {x o}, m.Rests w.heap x o → o.id ≠ order.id) (orders : Dict ℕ Ref) :
    ∃ list, putUser { m with orders := orders } w order ref =
        some { m with orders := orders, users := dictReplace m.users order.userId list } ∧
      list.Perm (ref :: m.userList order.userId) ∧ SortedBy (newestAt w.heap) list := by
  have resting : ∀ x ∈ m.userList order.userId, ∃ o, m.Rests w.heap x o := fun x mem => by
    obtain ⟨o, rests, _⟩ := inv.users.mp mem
    exact ⟨o, rests⟩
  refine MatchEngine.putUser_spec (m := { m with orders := orders })
    (fun x mem => (resting x mem).imp fun _ rests => rests.1) (inv.userSorted order.userId) found ?_
  intro x mem same
  obtain ⟨o, rests⟩ := resting x mem
  rw [newestAt_of_some rests.1, newestAt_of_some found] at same
  exact fresh rests (OrderDual.toDual_inj.mp same)

omit [Libmpdec] in
/-- A market whose book and list have taken in the order is in step. -/
theorem IndexInv.insert {heap : Ref → Option Order} (inv : IndexInv m heap)
    (listed : Listed heap order.side ref order)
    (fresh : ∀ {x o}, m.Rests heap x o → o.id ≠ order.id) {book list : List Ref}
    (bookPerm : book.Perm (ref :: m.book order.side)) (bookSorted : SortedBy (priorityAt heap) book)
    (userPerm : list.Perm (ref :: m.userList order.userId))
    (userSorted : SortedBy (newestAt heap) list) {m' : Market}
    (eq : m' = Market.setBook { m with
      orders := dictReplace m.orders order.id ref
      users := dictReplace m.users order.userId list } order.side book) :
    m.Adds m' ref order ∧ IndexInv m' heap := by
  subst eq
  set m' := Market.setBook _ order.side book
  have userList (user : ℕ) : m'.userList user =
      if user = order.userId then list else m.userList user := by
    unfold Market.userList
    simp only [m', Market.setBook_users]
    by_cases same : user = order.userId
    · simp [same]
    · simp [same, dictFind_replace_ne same]
  have bookOf (side : Side) : m'.book side = if side = order.side then book else m.book side := by
    by_cases same : side = order.side
    · simp [m', same]
    · rw [if_neg same, Market.book_setBook_ne _ same]
      cases side <;> rfl
  have adds : m.Adds m' ref order := by
    refine ⟨Market.setBook_toMarketConf _ _ _, ?_, Market.setBook_orders _ _ _, ?_⟩
    · intro side x
      rw [bookOf]
      by_cases same : side = order.side
      · subst same
        simp [bookPerm.mem_iff]
      · simp [same]
    · intro user x
      rw [userList]
      by_cases same : user = order.userId
      · subst same
        simp [userPerm.mem_iff]
      · simp [same]
  refine ⟨adds, inv.adds adds listed fresh ?_ ?_⟩
  · intro side
    rw [bookOf]
    split
    · exact bookSorted
    · exact inv.sorted side
  · intro user
    rw [userList]
    split
    · exact userSorted
    · exact inv.userSorted user

/-- `order_put` adds one resting order to all indexes, then freezes. -/
theorem orderPut_spec [Settings] (inv : IndexInv m w.heap) (limit : order.type = .limit)
    (finite : order.price.isFinite) (unused : ∀ side, w.nextRef ∉ m.book side)
    (fresh : ∀ {x o}, m.Rests w.heap x o → o.id ≠ order.id) :
    ∃ m' : Market, orderPut m w order =
        ((balanceFreeze (w.place order).ledger order.userId (m.gives order.side)
            (freezeAmount order)).1.isSome, m',
          (w.place order).discard (balanceFreeze (w.place order).ledger order.userId
            (m.gives order.side) (freezeAmount order))) ∧
      m.Adds m' w.nextRef order.placed ∧ IndexInv m' (w.place order).heap := by
  let stored : World := { w.store w.nextRef order with nextRef := w.nextRef + 1 }
  have differ {x : Ref} {o : Order} {heap : Ref → Option Order} (rests : m.Rests heap x o) :
      x ≠ w.nextRef := by
    rintro rfl
    exact unused _ rests.2
  have storedInv : IndexInv m stored.heap := inv.rekey fun {x o} rests =>
    ⟨o, (Function.update_of_ne (differ rests) _ _).trans rests.1, .refl o⟩
  have storedFresh : ∀ {x o}, m.Rests stored.heap x o → o.id ≠ order.id := fun rests =>
    fresh ⟨(Function.update_of_ne (differ rests) _ _).symm.trans rests.1, rests.2⟩
  have listed : Listed stored.heap order.side w.nextRef order :=
    ⟨Function.update_self .., rfl, limit, finite⟩
  have absent : dictFind m.orders order.id = none := by
    cases found : dictFind m.orders order.id with
    | none => rfl
    | some x =>
        obtain ⟨o, rests, same⟩ := inv.orders.mp found
        exact absurd same (fresh rests)
  obtain ⟨list, put, userPerm, userSorted⟩ := storedInv.putUser_spec listed.found storedFresh
    (dictReplace m.orders order.id w.nextRef)
  obtain ⟨book, inserted, bookPerm, bookSorted⟩ :=
    bookInsert_spec storedInv.toBookInv listed storedFresh
  obtain ⟨adds, storedIndex⟩ :=
    storedInv.insert listed storedFresh bookPerm bookSorted userPerm userSorted rfl
  refine ⟨_, ?_, ⟨adds.conf, adds.book, adds.orders, adds.users⟩, ?_⟩
  · have limit' : ¬ order.type ≠ .limit := not_not.mpr limit
    have inserted' : skiplistInsert (compareAt stored.heap orderMatchCompare)
        (Market.book { m with
          orders := dictReplace m.orders order.id w.nextRef
          users := dictReplace m.users order.userId list } order.side) w.nextRef = some book := by
      rw [← inserted]
      cases order.side <;> rfl
    simp only [orderPut, if_neg limit', dictAdd_of_fresh absent]
    rw [show putUser _ _ order w.nextRef = _ from put]
    simp only
    rw [show skiplistInsert _ _ w.nextRef = _ from inserted']
    simp only [Market.setBook_toMarketConf]
    rfl
  · refine storedIndex.rekey fun {x o} rests => ?_
    rw [World.place_heap]
    rcases (adds.rests listed.found).mp rests with ⟨rfl, rfl⟩ | rests
    · exact ⟨_, Function.update_self .., o.sameKey_placed⟩
    · have other := differ rests
      refine ⟨o, ?_, .refl o⟩
      rw [Function.update_of_ne other, ← rests.1]
      exact (Function.update_of_ne other _ _).symm

/-! ## Removing -/

/-- `m'` is `m` with the order at `ref` taken out of every index. -/
structure Market.Removes (m m' : Market) (ref : Ref) (order : Order) : Prop where
  conf : m'.toMarketConf = m.toMarketConf
  book : ∀ side, m'.book side = (m.book side).erase ref
  orders : m'.orders = dictDelete m.orders order.id
  userList : ∀ user, m'.userList user = (m.userList user).erase ref

omit [Libmpdec] in
theorem BookInv.mem_erase {heap : Ref → Option Order} (inv : BookInv m heap) {side : Side}
    {x : Ref} : x ∈ (m.book side).erase ref ↔ x ≠ ref ∧ x ∈ m.book side :=
  (inv.nodup side).mem_erase_iff

omit [Libmpdec] in
/-- Writes to an address outside the books do not matter to them. -/
theorem BookInv.erase {m' : Market} {heap heap' : Ref → Option Order} (inv : BookInv m heap)
    (book : ∀ side, m'.book side = (m.book side).erase ref)
    (same : ∀ x, x ≠ ref → heap' x = heap x) : BookInv m' heap' := by
  have shrunk : BookInv m' heap := by
    refine ⟨?_, ?_, ?_⟩
    · intro side x mem
      rw [book] at mem
      exact inv.listed (List.mem_of_mem_erase mem)
    · intro x y a b ra rb
      have before {z : Ref} {c : Order} (rests : m'.Rests heap z c) : m.Rests heap z c :=
        ⟨rests.1, List.mem_of_mem_erase (book c.side ▸ rests.2)⟩
      exact inv.unique (before ra) (before rb)
    · intro side
      rw [book]
      exact (inv.sorted side).sublist List.erase_sublist
  refine shrunk.rekey fun {x o} rests => ⟨o, ?_, .refl o⟩
  have mem := rests.2
  rw [book, inv.mem_erase] at mem
  exact (same x mem.1).trans rests.1

omit [Libmpdec] in
/-- Once every index has dropped an order, its address may be freed. -/
theorem IndexInv.removes {m' : Market} {heap heap' : Ref → Option Order} (inv : IndexInv m heap)
    (removes : m.Removes m' ref order) (rests : m.Rests heap ref order)
    (same : ∀ x, x ≠ ref → heap' x = heap x) : IndexInv m' heap' := by
  have after {x : Ref} {o : Order} : m'.Rests heap' x o ↔ x ≠ ref ∧ m.Rests heap x o := by
    constructor
    · intro rests
      have mem := rests.2
      rw [removes.book, inv.toBookInv.mem_erase] at mem
      exact ⟨mem.1, (same x mem.1).symm.trans rests.1, mem.2⟩
    · rintro ⟨differ, rests⟩
      refine ⟨(same x differ).trans rests.1, ?_⟩
      rw [removes.book, inv.toBookInv.mem_erase]
      exact ⟨differ, rests.2⟩
  have userMem {user : ℕ} {x : Ref} : x ∈ m'.userList user ↔ x ≠ ref ∧ x ∈ m.userList user := by
    rw [removes.userList, (inv.userList_nodup user).mem_erase_iff]
  refine ⟨inv.toBookInv.erase removes.book same, ?_, ?_, ?_⟩
  · intro id x
    simp only [removes.orders, after]
    by_cases gone : id = order.id
    · subst gone
      rw [dictFind_delete]
      constructor
      · intro found
        cases found
      · rintro ⟨o, ⟨differ, restsX⟩, eq⟩
        exact absurd (inv.unique restsX rests eq) differ
    · rw [dictFind_delete_ne gone, inv.orders]
      constructor
      · rintro ⟨o, restsX, rfl⟩
        refine ⟨o, ⟨?_, restsX⟩, rfl⟩
        rintro rfl
        exact gone (congrArg Order.id (restsX.eq rests.1))
      · rintro ⟨o, ⟨_, restsX⟩, eq⟩
        exact ⟨o, restsX, eq⟩
  · intro user x
    rw [userMem, inv.users]
    simp only [after]
    constructor
    · rintro ⟨differ, o, restsX, eq⟩
      exact ⟨o, ⟨differ, restsX⟩, eq⟩
    · rintro ⟨o, ⟨differ, restsX⟩, eq⟩
      exact ⟨differ, o, restsX, eq⟩
  · intro user
    have shrunk : SortedBy (newestAt heap) (m'.userList user) := by
      rw [removes.userList]
      exact (inv.userSorted user).sublist List.erase_sublist
    refine shrunk.congr fun x mem => ?_
    unfold newestAt
    rw [same x (userMem.mp mem).1]

/-- The search in the book finds the order and unlinks it. -/
theorem unlinkBook_eq (inv : BookInv m w.heap) (rests : m.Rests w.heap ref order) :
    unlinkBook m w order ref = m.setBook order.side ((m.book order.side).erase ref) := by
  have ranks : RanksOn (compareAt w.heap orderMatchCompare) (priorityAt w.heap)
      {x | x ∈ m.book order.side} := by
    refine orderMatchCompare_ranks order.side (fun x mem => inv.listed mem) ?_
    intro x hx y hy a b fa fb same
    obtain ⟨_, ra, _⟩ := inv.rests_of_mem hx
    obtain ⟨_, rb, _⟩ := inv.rests_of_mem hy
    obtain rfl := ra.eq fa
    obtain rfl := rb.eq fb
    exact inv.unique ra rb same
  have find := skiplistFind_of_mem ranks (inv.sorted order.side) (fun _ mem => mem) rests.2
  have delete := skiplistDelete_of_mem ranks (inv.sorted order.side) (fun _ mem => mem) rests.2
  simp only [unlinkBook, find, delete]

omit [Libmpdec] in
theorem BookInv.setBook_erase {heap : Ref → Option Order} (inv : BookInv m heap)
    (rests : m.Rests heap ref order) (side : Side) :
    (m.setBook order.side ((m.book order.side).erase ref)).book side =
      (m.book side).erase ref := by
  by_cases same : side = order.side
  · subst same
    simp
  · rw [Market.book_setBook_ne _ same, List.erase_of_not_mem]
    intro mem
    obtain ⟨o, restsX, sideX⟩ := inv.rests_of_mem mem
    obtain rfl := restsX.eq rests.1
    exact same sideX.symm

omit [Libmpdec] in
/-- The search in the user's list finds the order and unlinks it. -/
theorem unlinkUser_eq (m : Market) (w : World) (order : Order) (ref : Ref)
    (live : ∀ x ∈ m.userList order.userId, ∃ o, w.heap x = some o)
    (sorted : SortedBy (newestAt w.heap) (m.userList order.userId))
    (mem : ref ∈ m.userList order.userId) :
    unlinkUser m w order ref =
      { m with
        users := dictReplace m.users order.userId ((m.userList order.userId).erase ref) } := by
  have ranks : RanksOn (compareAt w.heap orderIdCompare) (newestAt w.heap)
      {x | x ∈ m.userList order.userId} := orderIdCompare_ranks live
  have find := skiplistFind_of_mem ranks sorted (fun _ mem => mem) mem
  have delete := skiplistDelete_of_mem ranks sorted (fun _ mem => mem) mem
  unfold Market.userList at mem find delete ⊢
  cases entry : dictFind m.users order.userId with
  | none => simp [entry] at mem
  | some list =>
      rw [entry] at find delete
      simp only [Option.getD_some] at find delete
      simp only [unlinkUser, entry, find, delete, Option.getD_some]

/-- `order_finish` past the release of the balance: every index drops the order,
then it is freed. -/
theorem orderRemove_spec (real : Bool) (inv : IndexInv m w.heap)
    (rests : m.Rests w.heap ref order) {w' : World} (same : w'.heap = w.heap) :
    ∃ (m' : Market) (output : World), orderRemove real (unlinkBook m w order ref) w' order ref =
        (m', orderFree output ref) ∧
      (∃ b, output = w'.emit b (.orderHistory order)) ∧
      m.Removes m' ref order ∧ IndexInv m' (orderFree output ref).heap := by
  let unlinked := m.setBook order.side ((m.book order.side).erase ref)
  let deleted : Market := { unlinked with orders := dictDelete unlinked.orders order.id }
  have userList (user : ℕ) : deleted.userList user = m.userList user := by
    simp [deleted, unlinked, Market.userList]
  have mem : ref ∈ m.userList order.userId := inv.users.mpr ⟨order, rests, rfl⟩
  have unlink := unlinkUser_eq deleted w' order ref
    (fun x mem => by
      rw [userList] at mem
      obtain ⟨o, restsX, _⟩ := inv.users.mp mem
      exact ⟨o, same ▸ restsX.1⟩)
    (by rw [userList, same]; exact inv.userSorted order.userId)
    (by rw [userList]; exact mem)
  have removes : m.Removes { deleted with
      users := dictReplace deleted.users order.userId
        ((deleted.userList order.userId).erase ref) } ref order := by
    refine ⟨Market.setBook_toMarketConf _ _ _, ?_, ?_, ?_⟩
    · intro side
      rw [← inv.toBookInv.setBook_erase rests side]
      cases side <;> rfl
    · simp [deleted, unlinked]
    · intro user
      by_cases own : user = order.userId
      · subst own
        rw [userList]
        simp [Market.userList]
      · have absent : ref ∉ m.userList user := by
          intro other
          obtain ⟨o, restsX, ownX⟩ := inv.users.mp other
          obtain rfl := restsX.eq rests.1
          exact own ownX.symm
        rw [List.erase_of_not_mem absent, ← userList user]
        simp [Market.userList, dictFind_replace_ne own]
  refine ⟨_, w'.emit (real && decide (mpdCmp order.dealStock mpdZero > 0)) (.orderHistory order),
    ?_, ⟨_, rfl⟩, removes, ?_⟩
  · unfold orderRemove
    rw [unlinkBook_eq inv.toBookInv rests]
    simp only
    rw [unlink]
  · refine inv.removes removes rests fun x differ => ?_
    rw [orderFree_heap, World.emit_heap, same, Function.update_of_ne differ]

/-! ## Finishing -/

omit [Libmpdec] in
theorem unlinkUser_keeps (m : Market) (w : World) (order : Order) (ref : Ref) :
    (unlinkUser m w order ref).toMarketConf = m.toMarketConf ∧
      ∀ side, (unlinkUser m w order ref).book side = m.book side := by
  unfold unlinkUser
  split
  · simp only
    split
    · exact ⟨rfl, fun side => by cases side <;> rfl⟩
    · exact ⟨rfl, fun _ => rfl⟩
  · exact ⟨rfl, fun _ => rfl⟩

/-- Whatever happens to the balance, `order_finish` takes the order out of the
book and touches no other order. -/
structure Finished (m m' : Market) (w w' : World) (ref : Ref) : Prop
    extends World.SameCounters w w' where
  conf : m'.toMarketConf = m.toMarketConf
  book : ∀ side, m'.book side = (m.book side).erase ref
  heap : ∀ x, x ≠ ref → w'.heap x = w.heap x

theorem orderFinish_finished [Settings] (real : Bool) (inv : BookInv m w.heap)
    (rests : m.Rests w.heap ref order) :
    Finished m (orderFinish real m w ref).2.1 w (orderFinish real m w ref).2.2 ref := by
  let unlinked := m.setBook order.side ((m.book order.side).erase ref)
  have conf : unlinked.toMarketConf = m.toMarketConf := Market.setBook_toMarketConf _ _ _
  have book := inv.setBook_erase rests
  have removed (w' : World) (same : w.SameOrders w') :
      Finished m (orderRemove real unlinked w' order ref).1 w
        (orderRemove real unlinked w' order ref).2 ref := by
    let deleted : Market := { unlinked with orders := dictDelete unlinked.orders order.id }
    have keeps := unlinkUser_keeps deleted w' order ref
    have emitted := same.trans (w'.emit_sameOrders
      (real && decide (mpdCmp order.dealStock mpdZero > 0)) (.orderHistory order))
    refine ⟨emitted.toSameCounters.trans (orderFree_sameCounters _ ref), keeps.1.trans conf, ?_, ?_⟩
    · intro side
      refine (keeps.2 side).trans (Eq.trans ?_ (book side))
      cases side <;> rfl
    · intro x differ
      exact (Function.update_of_ne differ _ _).trans (congrFun emitted.heap x)
  simp only [orderFinish, rests.1, unlinkBook_eq inv rests]
  split
  · split
    · exact ⟨⟨rfl, rfl, rfl, rfl⟩, conf, book, fun _ _ => rfl⟩
    · exact removed _ (w.discard_sameOrders _)
  · exact removed _ (.refl w)

/-- With nothing left frozen, `order_finish` makes no balance call. -/
theorem orderFinish_released [Settings] (real : Bool) (inv : IndexInv m w.heap)
    (rests : m.Rests w.heap ref order) (finite : order.freeze.isFinite)
    (zero : order.freeze.value ≤ 0) :
    ∃ (m' : Market) (w' : World), orderFinish real m w ref = (true, m', w') ∧
      w'.ledger = w.ledger ∧ w'.ignored = w.ignored ∧
      m.Removes m' ref order ∧ IndexInv m' w'.heap ∧ w'.heap ref = none := by
  obtain ⟨m', output, removed, ⟨b, emitted⟩, removes, inv'⟩ :=
    orderRemove_spec real inv rests (rfl : w.heap = w.heap)
  have held : ¬ mpdCmp order.freeze mpdZero > 0 := by
    rw [gt_iff_lt, mpdCmp_gt_zero finite mpdZero_isFinite, mpdZero_value]
    exact not_lt.mpr zero
  refine ⟨m', orderFree output ref, ?_, ?_, ?_, removes, inv', by simp⟩
  · simp only [orderFinish, rests.1, if_neg held, removed]
  · simp [emitted]
  · simp [emitted]

end ViabtcServer.MatchEngine
