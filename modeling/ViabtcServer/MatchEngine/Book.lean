import ViabtcServer.MatchEngine.Market
import Mathlib.Data.Prod.Lex
import Mathlib.Order.OrderDual
import Mathlib.Data.List.Nodup

/-!
# The indexes of a market

The books are sorted by price and age, the user lists by age, and the id
dictionary, the user lists and the books hold the same orders. `BookInv` speaks
of the books alone, `IndexInv` of all indexes. Both look only at the fields of
an order that never change, so they survive writes to the others.
-/

namespace ViabtcServer.MatchEngine

open Decimal Container

/-! ## Keys -/

/-- Prices of a side, turned so that the lower rank is served first. -/
def Side.rank : Side → ℚ → ℚ
  | .ask, price => price
  | .bid, price => -price

/-- Best price first, then the older order. -/
def Order.priority (o : Order) : ℚ ×ₗ ℕ :=
  toLex (o.side.rank o.price.value, o.id)

def priorityAt (heap : Ref → Option Order) (ref : Ref) : ℚ ×ₗ ℕ :=
  ((heap ref).map Order.priority).getD (toLex (0, 0))

/-- The key of user lists: later orders come first. -/
def newestAt (heap : Ref → Option Order) (ref : Ref) : ℕᵒᵈ :=
  OrderDual.toDual (((heap ref).map Order.id).getD 0)

/-- The fields of an order that never change agree. -/
structure Order.SameKey (o o' : Order) : Prop where
  id : o'.id = o.id
  type : o'.type = o.type
  side : o'.side = o.side
  userId : o'.userId = o.userId
  market : o'.market = o.market
  price : o'.price = o.price

theorem Order.SameKey.refl (o : Order) : o.SameKey o :=
  ⟨rfl, rfl, rfl, rfl, rfl, rfl⟩

theorem Order.SameKey.trans {o o' o'' : Order} (one : o.SameKey o') (two : o'.SameKey o'') :
    o.SameKey o'' :=
  ⟨two.id.trans one.id, two.type.trans one.type, two.side.trans one.side,
    two.userId.trans one.userId, two.market.trans one.market, two.price.trans one.price⟩

theorem Order.SameKey.priority {o o' : Order} (same : o.SameKey o') :
    o'.priority = o.priority := by
  simp only [Order.priority, same.side, same.price, same.id]

variable {heap heap' : Ref → Option Order} {s : Set Ref} {side : Side} {m m' : Market}
  {w : World} {ref : Ref} {order o : Order}

theorem priorityAt_of_some (found : heap ref = some o) : priorityAt heap ref = o.priority := by
  simp [priorityAt, found]

theorem newestAt_of_some (found : heap ref = some o) :
    newestAt heap ref = OrderDual.toDual o.id := by
  simp [newestAt, found]

/-- What `order_match_compare` relies on for the orders of one list. -/
structure Listed (heap : Ref → Option Order) (side : Side) (ref : Ref) (o : Order) : Prop where
  found : heap ref = some o
  side : o.side = side
  limit : o.type = .limit
  finite : o.price.isFinite

section Ranking

variable [Libmpdec]

theorem priceCompare_ranks {a b : Order} (fa : a.price.isFinite) (fb : b.price.isFinite)
    (same : a.side = b.side) :
    (priceCompare a b < 0 ↔ a.side.rank a.price.value < b.side.rank b.price.value) ∧
      (priceCompare a b = 0 ↔ a.side.rank a.price.value = b.side.rank b.price.value) := by
  unfold priceCompare
  rw [← same]
  cases a.side with
  | ask => exact ⟨mpdCmp_lt_zero fa fb, mpdCmp_eq_zero fa fb⟩
  | bid =>
      simp only [Side.rank, neg_lt_neg_iff, neg_inj]
      exact ⟨mpdCmp_lt_zero fb fa, (mpdCmp_eq_zero fb fa).trans eq_comm⟩

/-- `order_match_compare` ranks limit orders of one side by priority, as long
as their ids tell them apart. -/
theorem orderMatchCompare_ranks (side : Side) (listed : ∀ x ∈ s, ∃ o, Listed heap side x o)
    (unique : ∀ x ∈ s, ∀ y ∈ s, ∀ o o', heap x = some o → heap y = some o' → o.id = o'.id →
      x = y) :
    RanksOn (compareAt heap orderMatchCompare) (priorityAt heap) s := by
  have both {x y : Ref} (hx : x ∈ s) (hy : y ∈ s) :
      (compareAt heap orderMatchCompare x y < 0 ↔ priorityAt heap x < priorityAt heap y) ∧
        (compareAt heap orderMatchCompare x y = 0 ↔ priorityAt heap x = priorityAt heap y) := by
    obtain ⟨a, la⟩ := listed x hx
    obtain ⟨b, lb⟩ := listed y hy
    rw [priorityAt_of_some la.found, priorityAt_of_some lb.found]
    simp only [compareAt, la.found, lb.found, orderMatchCompare]
    by_cases same : a.id = b.id
    · obtain rfl := unique x hx y hy a b la.found lb.found same
      obtain rfl : a = b := Option.some.inj (la.found.symm.trans lb.found)
      simp
    · rw [if_neg same, if_neg (by simp [la.limit, lb.limit])]
      obtain ⟨neg, zero⟩ :=
        priceCompare_ranks la.finite lb.finite (la.side.trans lb.side.symm)
      simp only [Order.priority, Prod.Lex.toLex_lt_toLex, toLex_inj, Prod.mk.injEq]
      by_cases tie : a.side.rank a.price.value = b.side.rank b.price.value
      · rw [if_neg (not_not.mpr (zero.mpr tie))]
        rcases lt_or_gt_of_ne same with lt | gt
        · simp [tie, lt, lt.not_gt, same]
        · simp [tie, gt, gt.not_gt, same]
      · rw [if_pos (zero.not.mpr tie)]
        simp [neg, zero, tie]
  exact ⟨fun hx hy => (both hx hy).1, fun hx hy => (both hx hy).2⟩

omit [Libmpdec] in
/-- `order_id_compare` ranks live orders by falling id. -/
theorem orderIdCompare_ranks (live : ∀ x ∈ s, ∃ o, heap x = some o) :
    RanksOn (compareAt heap orderIdCompare) (newestAt heap) s := by
  have both {x y : Ref} (hx : x ∈ s) (hy : y ∈ s) :
      (compareAt heap orderIdCompare x y < 0 ↔ newestAt heap x < newestAt heap y) ∧
        (compareAt heap orderIdCompare x y = 0 ↔ newestAt heap x = newestAt heap y) := by
    obtain ⟨a, fa⟩ := live x hx
    obtain ⟨b, fb⟩ := live y hy
    rw [newestAt_of_some fa, newestAt_of_some fb]
    simp only [compareAt, fa, fb, orderIdCompare, OrderDual.toDual_lt_toDual,
      EmbeddingLike.apply_eq_iff_eq]
    rcases lt_trichotomy a.id b.id with lt | eq | gt
    · simp [lt.ne, lt.not_gt]
    · simp [eq]
    · simp [gt.ne', gt]
  exact ⟨fun hx hy => (both hx hy).1, fun hx hy => (both hx hy).2⟩

end Ranking

/-! ## The invariants -/

/-- The order at `ref` rests in its side of the book. -/
def Market.Rests (m : Market) (heap : Ref → Option Order) (ref : Ref) (o : Order) : Prop :=
  heap ref = some o ∧ ref ∈ m.book o.side

/-- The books hold live limit orders of their side, told apart by their ids and
sorted by priority. -/
structure BookInv (m : Market) (heap : Ref → Option Order) : Prop where
  listed : ∀ {side ref}, ref ∈ m.book side → ∃ o, Listed heap side ref o
  unique : ∀ {ref ref' o o'}, m.Rests heap ref o → m.Rests heap ref' o' → o.id = o'.id →
    ref = ref'
  sorted : ∀ side, SortedBy (priorityAt heap) (m.book side)

/-- The id dictionary and the user lists hold the orders of the books. -/
structure IndexInv (m : Market) (heap : Ref → Option Order) : Prop extends BookInv m heap where
  orders : ∀ {id ref}, dictFind m.orders id = some ref ↔ ∃ o, m.Rests heap ref o ∧ o.id = id
  users : ∀ {user ref}, ref ∈ m.userList user ↔ ∃ o, m.Rests heap ref o ∧ o.userId = user
  userSorted : ∀ user, SortedBy (newestAt heap) (m.userList user)

theorem Market.Rests.eq {o' : Order} (rests : m.Rests heap ref o) (found : heap ref = some o') :
    o = o' :=
  Option.some.inj (rests.1.symm.trans found)

theorem BookInv.rests_of_mem (inv : BookInv m heap) (mem : ref ∈ m.book side) :
    ∃ o, m.Rests heap ref o ∧ o.side = side := by
  obtain ⟨o, listed⟩ := inv.listed mem
  exact ⟨o, ⟨listed.found, by rwa [listed.side]⟩, listed.side⟩

theorem BookInv.nodup (inv : BookInv m heap) (side : Side) : (m.book side).Nodup :=
  (inv.sorted side).nodup

theorem IndexInv.userList_nodup (inv : IndexInv m heap) (user : ℕ) : (m.userList user).Nodup :=
  (inv.userSorted user).nodup

/-- The invariant of the books depends only on the keys of resting orders. -/
theorem BookInv.rekey (inv : BookInv m heap)
    (same : ∀ {ref o}, m.Rests heap ref o → ∃ o', heap' ref = some o' ∧ o.SameKey o') :
    BookInv m heap' := by
  have back {ref : Ref} {o' : Order} (rests : m.Rests heap' ref o') :
      ∃ o, m.Rests heap ref o ∧ o.SameKey o' := by
    obtain ⟨o, before, _⟩ := inv.rests_of_mem rests.2
    obtain ⟨o'', found, keep⟩ := same before
    obtain rfl := rests.eq found
    exact ⟨o, before, keep⟩
  refine ⟨?_, ?_, ?_⟩
  · intro side ref mem
    obtain ⟨o, listed⟩ := inv.listed mem
    obtain ⟨o', found, keep⟩ := same ⟨listed.found, by rwa [listed.side]⟩
    exact ⟨o', found, keep.side.trans listed.side, keep.type.trans listed.limit,
      keep.price ▸ listed.finite⟩
  · intro ref ref' o o' rests rests' eq
    obtain ⟨p, before, keep⟩ := back rests
    obtain ⟨p', before', keep'⟩ := back rests'
    exact inv.unique before before' (by rw [← keep.id, ← keep'.id, eq])
  · intro side
    refine (inv.sorted side).congr ?_
    intro ref mem
    obtain ⟨o, listed⟩ := inv.listed mem
    obtain ⟨o', found, keep⟩ := same ⟨listed.found, by rwa [listed.side]⟩
    rw [priorityAt_of_some found, priorityAt_of_some listed.found, keep.priority]

/-- Which orders rest after writes that keep the keys. -/
theorem BookInv.rests_rekey (inv : BookInv m heap)
    (same : ∀ {ref o}, m.Rests heap ref o → ∃ o', heap' ref = some o' ∧ o.SameKey o')
    {p : ℕ} {key : Order → ℕ} (stable : ∀ {o o'}, Order.SameKey o o' → key o' = key o) :
    (∃ o', m.Rests heap' ref o' ∧ key o' = p) ↔ ∃ o, m.Rests heap ref o ∧ key o = p := by
  constructor
  · rintro ⟨o', rests, rfl⟩
    obtain ⟨o, before, _⟩ := inv.rests_of_mem rests.2
    obtain ⟨o'', found, keep⟩ := same before
    obtain rfl := rests.eq found
    exact ⟨o, before, (stable keep).symm⟩
  · rintro ⟨o, before, rfl⟩
    obtain ⟨o', found, keep⟩ := same before
    exact ⟨o', ⟨found, keep.side ▸ before.2⟩, stable keep⟩

theorem IndexInv.rekey (inv : IndexInv m heap)
    (same : ∀ {ref o}, m.Rests heap ref o → ∃ o', heap' ref = some o' ∧ o.SameKey o') :
    IndexInv m heap' where
  toBookInv := inv.toBookInv.rekey same
  orders {id ref} := by
    rw [inv.orders, inv.toBookInv.rests_rekey same fun keep => keep.id]
  users {user ref} := by
    rw [inv.users, inv.toBookInv.rests_rekey same fun keep => keep.userId]
  userSorted user := by
    refine (inv.userSorted user).congr ?_
    intro ref mem
    obtain ⟨o, before, _⟩ := inv.users.mp mem
    obtain ⟨o', found, keep⟩ := same before
    rw [newestAt_of_some found, newestAt_of_some before.1, keep.id]

end ViabtcServer.MatchEngine
