import ViabtcServer.MatchEngine.LimitOrder
import ViabtcServer.MatchEngine.MarketOrder
import ViabtcServer.MatchEngine.Arguments

/-!
# The engine between commands

The invariant of all markets over one ledger and one heap. The orders of
different markets lie at different addresses, so a command on one market leaves
the others as they are, and what is frozen is the sum over the markets.
-/

namespace ViabtcServer.MatchEngine

open Decimal Container

/-! ## Frozen over all markets -/

/-- What a user's open orders freeze of an asset, over all markets. -/
def frozenBy (markets : Dict String Market) (heap : Ref → Option Order) (user : ℕ)
    (asset : String) : ℚ :=
  dictSum (fun _ m => m.frozen heap user asset) markets

section Inv

variable [Settings]

/-- What holds between commands. -/
structure EngineInv (e : Engine) : Prop where
  named : ∀ {name m}, dictFind e.markets name = some m → m.name = name
  market : ∀ {name m}, dictFind e.markets name = some m → MarketInv m e.world
  apart : ∀ {name name' m m' x x' o o'}, dictFind e.markets name = some m →
    dictFind e.markets name' = some m' → m.Rests e.world.heap x o →
    m'.Rests e.world.heap x' o' → o.id = o'.id → x = x'
  sound : e.world.ledger.Sound
  backed : ∀ user asset, e.world.ledger.holds ⟨user, .freeze, asset⟩ =
    frozenBy e.markets e.world.heap user asset

variable {e e' : Engine} {name : String} {m m' : Market} {w : World} {outcome : Outcome}

/-- Only the markets and the world matter. -/
theorem EngineInv.of_eq (inv : EngineInv e) (markets : e'.markets = e.markets)
    (world : e'.world = e.world) : EngineInv e' where
  named found := inv.named (markets ▸ found)
  market found := world ▸ inv.market (markets ▸ found)
  apart found found' rests rests' same :=
    inv.apart (markets ▸ found) (markets ▸ found') (world ▸ rests) (world ▸ rests') same
  sound := world ▸ inv.sound
  backed user asset := by
    rw [world, markets]
    exact inv.backed user asset

/-- What the other markets hold frozen. -/
def Engine.heldBeside (e : Engine) (name : String) (user : ℕ) (asset : String) : ℚ :=
  frozenBy (dictDelete e.markets name) e.world.heap user asset

theorem EngineInv.backed_beside (inv : EngineInv e) (found : dictFind e.markets name = some m) :
    Backed (e.heldBeside name) m e.world := by
  intro user asset
  rw [inv.backed, Engine.heldBeside, frozenBy, dictSum_delete _ found, frozenBy, add_comm]

omit [Settings] in
theorem frozenBy_nonneg {markets : Dict String Market} {heap : Ref → Option Order}
    (nonneg : ∀ {name m}, dictFind markets name = some m →
      ∀ user asset, 0 ≤ m.frozen heap user asset) (user : ℕ) (asset : String) :
    0 ≤ frozenBy markets heap user asset := by
  refine List.sum_nonneg fun term mem => ?_
  obtain ⟨entry, entryMem, rfl⟩ := List.mem_map.mp mem
  exact nonneg (mem_entries_iff.mp entryMem) user asset

theorem MarketInv.frozen_nonneg (inv : MarketInv m w) (user : ℕ) (asset : String) :
    0 ≤ m.frozen w.heap user asset :=
  Market.frozen_nonneg inv.index (fun rests => (inv.resting rests).freeze_pos.le) user asset

omit [Settings] in
/-- The other markets are found as before. -/
theorem dictFind_of_delete {ν : Type} {dict : Dict String ν} {key other : String} {val : ν}
    (found : dictFind (dictDelete dict key) other = some val) :
    other ≠ key ∧ dictFind dict other = some val := by
  have differ : other ≠ key := by
    rintro rfl
    simp at found
  exact ⟨differ, by rwa [dictFind_delete_ne differ] at found⟩

theorem EngineInv.heldBeside_nonneg (inv : EngineInv e) (name : String) (user : ℕ)
    (asset : String) : 0 ≤ e.heldBeside name user asset :=
  frozenBy_nonneg (fun found => (inv.market (dictFind_of_delete found).2).frozen_nonneg) user asset

/-! ## One market changes -/

/-- The orders of another market are out of a command's reach. -/
theorem EngineInv.heap_beside {held : ℕ → String → ℚ} (inv : EngineInv e)
    (found : dictFind e.markets name = some m)
    (step : MarketStep held m m' e.world w) {other : String} {n : Market} (differ : other ≠ name)
    (found' : dictFind e.markets other = some n) {x : Ref} {o : Order}
    (rests : n.Rests e.world.heap x o) : w.heap x = e.world.heap x := by
  refine step.heap x ((inv.market found').below rests).1 fun side mem => ?_
  obtain ⟨o', rests', _⟩ := (inv.market found).index.rests_of_mem mem
  obtain rfl := rests.eq rests'.1
  have named := ((inv.market found').resting rests).market
  have named' := ((inv.market found).resting rests').market
  rw [inv.named found'] at named
  rw [inv.named found] at named'
  exact differ (named.symm.trans named')

/-- A market whose orders a command leaves alone keeps its invariant. -/
theorem MarketInv.beside {w' : World} (inv : MarketInv m w) (nextRef : w.nextRef ≤ w'.nextRef)
    (orderId : w.orderIdStart ≤ w'.orderIdStart)
    (same : ∀ {x o}, m.Rests w.heap x o → w'.heap x = w.heap x) :
    MarketInv m w' ∧ ∀ {x o}, m.Rests w'.heap x o → m.Rests w.heap x o := by
  have back {x : Ref} {o : Order} (rests : m.Rests w'.heap x o) : m.Rests w.heap x o := by
    obtain ⟨o', rests', _⟩ := inv.index.rests_of_mem rests.2
    exact ⟨(same rests').symm.trans rests.1, rests.2⟩
  refine ⟨⟨inv.ok, inv.index.rekey fun {x o} rests => ?_, ?_, ?_, ?_⟩, back⟩
  · exact ⟨o, (same rests).trans rests.1, .refl o⟩
  · exact fun rests => inv.resting (back rests)
  · intro x o rests
    have below := inv.below (back rests)
    exact ⟨below.1.trans_le nextRef, below.2.trans orderId⟩
  · exact fun ra rb sa sb => inv.uncrossed (back ra) (back rb) sa sb

/-- A command on one market keeps the invariant of the engine. -/
theorem EngineInv.install (inv : EngineInv e) (found : dictFind e.markets name = some m)
    (step : MarketStep (e.heldBeside name) m outcome.market e.world outcome.world) :
    EngineInv (e.install name outcome) := by
  have cases_ {other : String} {n : Market}
      (found' : dictFind (e.install name outcome).markets other = some n) :
      (other = name ∧ n = outcome.market) ∨
        (other ≠ name ∧ dictFind e.markets other = some n) := by
    by_cases same : other = name
    · subst same
      rw [Engine.install, dictFind_replace] at found'
      exact Or.inl ⟨rfl, (Option.some.inj found').symm⟩
    · rw [Engine.install, dictFind_replace_ne same] at found'
      exact Or.inr ⟨same, found'⟩
  have beside {other : String} {n : Market} (differ : other ≠ name)
      (found' : dictFind e.markets other = some n) :=
    (inv.market found').beside step.nextRef_le step.orderId_le
      (inv.heap_beside found step differ found')
  -- an order of any market after the command was there before or is new
  have origin {other : String} {n : Market} {x : Ref} {o : Order}
      (found' : dictFind (e.install name outcome).markets other = some n)
      (rests : n.Rests outcome.world.heap x o) :
      (∃ n₀ o₀, dictFind e.markets other = some n₀ ∧ n₀.Rests e.world.heap x o₀ ∧ o.id = o₀.id) ∨
        (other = name ∧ e.world.orderIdStart < o.id) := by
    rcases cases_ found' with ⟨rfl, rfl⟩ | ⟨differ, found'⟩
    · rcases step.rests rests with ⟨o₀, before, keep⟩ | ⟨_, new⟩
      · exact Or.inl ⟨m, o₀, found, before, keep.id⟩
      · exact Or.inr ⟨rfl, new⟩
    · exact Or.inl ⟨n, o, found', (beside differ found').2 rests, rfl⟩
  have old {other : String} {n : Market} {x : Ref} {o : Order}
      (found' : dictFind e.markets other = some n) (rests : n.Rests e.world.heap x o) :
      o.id ≤ e.world.orderIdStart := ((inv.market found').below rests).2
  refine ⟨?_, ?_, ?_, step.sound, ?_⟩
  · intro other n found'
    rcases cases_ found' with ⟨rfl, rfl⟩ | ⟨_, found'⟩
    · exact (congrArg MarketConf.name step.conf).trans (inv.named found)
    · exact inv.named found'
  · intro other n found'
    rcases cases_ found' with ⟨rfl, rfl⟩ | ⟨differ, found'⟩
    · exact step.inv
    · exact (beside differ found').1
  · intro name₁ name₂ m₁ m₂ x₁ x₂ o₁ o₂ found₁ found₂ rests₁ rests₂ same
    rcases origin found₁ rests₁ with ⟨n₁, p₁, before₁, was₁, id₁⟩ | ⟨rfl, new₁⟩ <;>
      rcases origin found₂ rests₂ with ⟨n₂, p₂, before₂, was₂, id₂⟩ | ⟨rfl, new₂⟩
    · exact inv.apart before₁ before₂ was₁ was₂ (by rw [← id₁, ← id₂, same])
    · have := old before₁ was₁
      omega
    · have := old before₂ was₂
      omega
    · -- both are the new order of the same market
      rw [found₁, Option.some.injEq] at found₂
      subst found₂
      rcases cases_ found₁ with ⟨_, rfl⟩ | ⟨differ, _⟩
      · exact step.inv.index.unique rests₁ rests₂ same
      · exact absurd rfl differ
  · intro user asset
    refine (step.backed user asset).trans ?_
    rw [Engine.heldBeside, frozenBy, frozenBy, Engine.install, dictSum_replace, add_comm]
    congr 1
    refine congrArg List.sum (List.map_congr_left fun entry mem => ?_)
    obtain ⟨differ, found'⟩ := dictFind_of_delete (mem_entries_iff.mp mem)
    refine (Market.frozen_congr rfl (.refl _) fun x mem => ?_).symm
    obtain ⟨o, rests, _⟩ := (inv.market found').index.users.mp mem
    exact inv.heap_beside found step differ found' rests

/-! ## The start -/

omit [Settings] in
/-- A market without orders. -/
theorem IndexInv.of_empty {heap : Ref → Option Order} (orders : m.orders = ∅) (users : m.users = ∅)
    (asks : m.asks = []) (bids : m.bids = []) : IndexInv m heap := by
  have book (side : Side) : m.book side = [] := by cases side <;> assumption
  have list (user : ℕ) : m.userList user = [] := by simp [Market.userList, users]
  have none {x : Ref} {o : Order} : ¬ m.Rests heap x o := by
    rintro ⟨_, mem⟩
    rw [book] at mem
    cases mem
  refine ⟨⟨?_, ?_, ?_⟩, ?_, ?_, ?_⟩
  · intro side ref mem
    rw [book] at mem
    cases mem
  · exact fun rests => absurd rests none
  · intro side
    rw [book]
    exact .nil
  · intro id ref
    simp [orders, none]
  · intro user ref
    simp [list, none]
  · intro user
    rw [list]
    exact .nil

/-- A market just created keeps the invariant in any world. -/
theorem marketCreate_inv {conf : MarketConf} (created : marketCreate conf = some m) (w : World) :
    m.name = conf.name ∧ MarketInv m w := by
  obtain ⟨ok, rfl⟩ := marketCreate_ok created
  have none {side : Side} {x : Ref} :
      x ∉ Market.book { conf with orders := ∅, users := ∅, asks := [], bids := [] } side := by
    cases side <;> exact List.not_mem_nil
  exact ⟨rfl, ok, .of_empty rfl rfl rfl rfl, fun rests => absurd rests.2 none,
    fun rests => absurd rests.2 none, fun rests => absurd rests.2 none⟩

end Inv

end ViabtcServer.MatchEngine
