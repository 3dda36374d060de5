import ViabtcServer.MatchEngine.Index
import Mathlib.Algebra.BigOperators.Group.List.Lemmas

/-!
# Frozen amounts

The sum of what the open orders of a user freeze of an asset, and how putting,
writing and removing an order changes it.
-/

namespace ViabtcServer.MatchEngine

open Decimal Container

/-- What an order freezes of an asset. -/
def Order.freezes (conf : MarketConf) (asset : String) (o : Order) : ℚ :=
  if conf.gives o.side = asset then o.freeze.value else 0

/-- The sum over the user's open orders in one market. -/
def Market.frozen (m : Market) (heap : Ref → Option Order) (user : ℕ) (asset : String) : ℚ :=
  ((m.userList user).map fun ref =>
    ((heap ref).map (Order.freezes m.toMarketConf asset)).getD 0).sum

variable {m m' : Market} {heap heap' : Ref → Option Order} {ref : Ref} {order o : Order}
  {user : ℕ} {asset : String}

/-- The sum depends only on the orders the user's list refers to. -/
theorem Market.frozen_congr (conf : m'.toMarketConf = m.toMarketConf)
    (list : (m'.userList user).Perm (m.userList user))
    (same : ∀ x ∈ m.userList user, heap' x = heap x) :
    m'.frozen heap' user asset = m.frozen heap user asset := by
  unfold frozen
  rw [conf, (list.map _).sum_eq]
  refine congrArg List.sum (List.map_congr_left fun x mem => ?_)
  rw [same x mem]

/-- A new order adds what it freezes. -/
theorem Market.frozen_adds (inv : IndexInv m heap) (inv' : IndexInv m' heap')
    (adds : m.Adds m' ref order) (found : heap' ref = some order)
    (unused : ∀ side, ref ∉ m.book side) (same : ∀ x, x ≠ ref → heap' x = heap x) :
    m'.frozen heap' user asset = m.frozen heap user asset +
      if user = order.userId then order.freezes m.toMarketConf asset else 0 := by
  have absent (user : ℕ) : ref ∉ m.userList user := by
    intro mem
    obtain ⟨o, rests, _⟩ := inv.users.mp mem
    exact unused _ rests.2
  have old : ((m.userList user).map fun x =>
      ((heap' x).map (Order.freezes m.toMarketConf asset)).getD 0).sum =
        m.frozen heap user asset := by
    refine congrArg List.sum (List.map_congr_left fun x mem => ?_)
    rw [same x]
    rintro rfl
    exact absent user mem
  unfold frozen at old ⊢
  rw [adds.conf, ← old]
  by_cases own : user = order.userId
  · have perm : (m'.userList user).Perm (ref :: m.userList user) := by
      refine (List.perm_ext_iff_of_nodup (inv'.userList_nodup user)
        (List.nodup_cons.mpr ⟨absent user, inv.userList_nodup user⟩)).mpr fun x => ?_
      rw [adds.users, List.mem_cons, and_iff_right own]
    rw [if_pos own, (perm.map _).sum_eq, List.map_cons, List.sum_cons, found]
    exact add_comm _ _
  · have perm : (m'.userList user).Perm (m.userList user) := by
      refine (List.perm_ext_iff_of_nodup (inv'.userList_nodup user)
        (inv.userList_nodup user)).mpr fun x => ?_
      rw [adds.users]
      simp [own]
    rw [if_neg own, add_zero, (perm.map _).sum_eq]

/-- Of one sum over a list without duplicates, one term is taken out. -/
private theorem sum_erase {f g : Ref → ℚ} {list : List Ref} (mem : ref ∈ list)
    (nodup : list.Nodup) (same : ∀ x, x ≠ ref → f x = g x) :
    ((list.erase ref).map f).sum = (list.map g).sum - g ref := by
  rw [← List.sum_map_erase g mem, add_sub_cancel_left]
  refine congrArg List.sum (List.map_congr_left fun x member => ?_)
  exact same x (nodup.mem_erase_iff.mp member).1

/-- Writing to an order changes its term. -/
theorem Market.frozen_store (inv : IndexInv m heap) (rests : m.Rests heap ref o)
    (found : heap' ref = some order) (side : order.side = o.side)
    (same : ∀ x, x ≠ ref → heap' x = heap x) :
    m.frozen heap' user asset = m.frozen heap user asset +
      if user = o.userId then
        if m.gives o.side = asset then order.freeze.value - o.freeze.value else 0
      else 0 := by
  by_cases own : user = o.userId
  · have mem : ref ∈ m.userList user := inv.users.mpr ⟨o, rests, own.symm⟩
    have rest := sum_erase (f := fun x =>
        ((heap' x).map (Order.freezes m.toMarketConf asset)).getD 0)
      (g := fun x => ((heap x).map (Order.freezes m.toMarketConf asset)).getD 0) mem
      (inv.userList_nodup user) fun x differ => by rw [same x differ]
    unfold frozen
    rw [← List.sum_map_erase _ mem, rest, found, rests.1, if_pos own]
    simp only [Option.map_some, Option.getD_some, Order.freezes, side]
    split <;> ring
  · rw [if_neg own, add_zero]
    refine frozen_congr rfl (.refl _) fun x mem => same x ?_
    rintro rfl
    obtain ⟨o', rests', own'⟩ := inv.users.mp mem
    obtain rfl := rests'.eq rests.1
    exact own own'.symm

/-- A removed order takes its term with it. -/
theorem Market.frozen_removes (inv : IndexInv m heap) (removes : m.Removes m' ref order)
    (rests : m.Rests heap ref order) (same : ∀ x, x ≠ ref → heap' x = heap x) :
    m'.frozen heap' user asset = m.frozen heap user asset -
      if user = order.userId then order.freezes m.toMarketConf asset else 0 := by
  by_cases own : user = order.userId
  · have mem : ref ∈ m.userList user := inv.users.mpr ⟨order, rests, own.symm⟩
    have rest := sum_erase (f := fun x =>
        ((heap' x).map (Order.freezes m.toMarketConf asset)).getD 0)
      (g := fun x => ((heap x).map (Order.freezes m.toMarketConf asset)).getD 0) mem
      (inv.userList_nodup user) fun x differ => by rw [same x differ]
    unfold frozen
    rw [removes.conf, removes.userList, rest, rests.1, if_pos own]
    rfl
  · have absent : ref ∉ m.userList user := by
      intro mem
      obtain ⟨o, rests', own'⟩ := inv.users.mp mem
      obtain rfl := rests'.eq rests.1
      exact own own'.symm
    rw [if_neg own, sub_zero]
    refine frozen_congr removes.conf ?_ fun x mem => same x ?_
    · rw [removes.userList, List.erase_of_not_mem absent]
    · rintro rfl
      exact absent mem

private theorem freezes_nonneg (nonneg : ∀ {ref o}, m.Rests heap ref o → 0 ≤ o.freeze.value)
    (inv : IndexInv m heap) {x : Ref} (mem : x ∈ m.userList user) :
    0 ≤ ((heap x).map (Order.freezes m.toMarketConf asset)).getD 0 := by
  obtain ⟨o, rests, _⟩ := inv.users.mp mem
  rw [rests.1]
  simp only [Option.map_some, Option.getD_some, Order.freezes]
  split
  · exact nonneg rests
  · exact le_rfl

theorem Market.frozen_nonneg (inv : IndexInv m heap)
    (nonneg : ∀ {ref o}, m.Rests heap ref o → 0 ≤ o.freeze.value) (user : ℕ) (asset : String) :
    0 ≤ m.frozen heap user asset := by
  refine List.sum_nonneg fun q mem => ?_
  obtain ⟨x, member, rfl⟩ := List.mem_map.mp mem
  exact freezes_nonneg nonneg inv member

/-- No order freezes more than its user has frozen altogether. -/
theorem Market.freeze_le_frozen (inv : IndexInv m heap)
    (nonneg : ∀ {ref o}, m.Rests heap ref o → 0 ≤ o.freeze.value) (rests : m.Rests heap ref o) :
    o.freeze.value ≤ m.frozen heap o.userId (m.gives o.side) := by
  refine List.single_le_sum (fun q mem => ?_) _ (List.mem_map.mpr
    ⟨ref, inv.users.mpr ⟨o, rests, rfl⟩, ?_⟩)
  · obtain ⟨x, member, rfl⟩ := List.mem_map.mp mem
    exact freezes_nonneg nonneg inv member
  · simp [rests.1, Order.freezes]

end ViabtcServer.MatchEngine
