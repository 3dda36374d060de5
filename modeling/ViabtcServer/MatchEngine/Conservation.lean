import ViabtcServer.MatchEngine.Reach

/-!
# Trading creates no money

Over its fills a market loses the fees, in stock exactly, in money up to one
unit of the stored precision for each fill. Balances outside the market and of
users who take no part stay as they are, and a cancel only moves an amount
between the two balances of one user.
-/

namespace ViabtcServer.MatchEngine

open Decimal Container

/-! ## What a fill posts -/

section Posted

variable [Settings] {conf : MarketConf} {f : Fill} {key : BalanceKey}

theorem assetSum_settlement (asset : String) (conf : MarketConf) (user : ℕ) (side : Side)
    (source : BalanceType) (f : Fill) :
    assetSum asset (settlement conf user side source f) =
      (if conf.gives side = asset then -(f.pays side).value else 0) +
        if conf.gets side = asset then
          (f.receives side).value - raiseAt (-assetPrec (conf.gets side)) (f.fee side).value
        else 0 := by
  unfold settlement
  rw [map_add, assetSum_single, assetSum_single]

/-- Of the stock a fill takes the fee of the bid away. -/
theorem Fill.Ok.assetSum_stock (ok : f.Ok conf) (differ : conf.stock ≠ conf.money) :
    assetSum conf.stock (f.posted conf) = -f.bidFee.value := by
  have raised := ok.bidFeeDigits.raiseAt_eq
  unfold Fill.posted
  rw [map_add, assetSum_settlement, assetSum_settlement]
  cases f.takerSide <;>
    simp only [MarketConf.gives, MarketConf.gets, Fill.pays, Fill.receives, Fill.fee,
      Side.opposite, differ.symm, raised, if_true, if_false] <;>
    ring

/-- Of the money it takes the fee of the ask away, rounded up. -/
theorem Fill.assetSum_money (f : Fill) (differ : conf.stock ≠ conf.money) :
    assetSum conf.money (f.posted conf) =
      -raiseAt (-assetPrec conf.money) f.askFee.value := by
  unfold Fill.posted
  rw [map_add, assetSum_settlement, assetSum_settlement]
  cases f.takerSide <;>
    simp only [MarketConf.gives, MarketConf.gets, Fill.pays, Fill.receives, Fill.fee,
      Side.opposite, differ, if_true, if_false] <;>
    ring

theorem settlement_apart {user : ℕ} {side : Side} {source : BalanceType}
    (apart : key.userId ≠ user ∨ (key.asset ≠ conf.stock ∧ key.asset ≠ conf.money)) :
    settlement conf user side source f key = 0 := by
  have differ (type : BalanceType) (other : Side) :
      key ≠ ⟨user, type, conf.gives other⟩ := by
    rintro rfl
    rcases apart with apart | ⟨stock, money⟩
    · exact apart rfl
    · cases other
      · exact stock rfl
      · exact money rfl
  unfold settlement
  rw [Finsupp.add_apply, MarketConf.gets_eq, Finsupp.single_eq_of_ne (differ _ _),
    Finsupp.single_eq_of_ne (differ _ _), add_zero]

/-- A fill leaves other assets and the balances of other users alone. -/
theorem Fill.posted_apart
    (apart : (key.userId ≠ f.user f.takerSide ∧ key.userId ≠ f.user f.takerSide.opposite) ∨
      (key.asset ≠ conf.stock ∧ key.asset ≠ conf.money)) :
    f.posted conf key = 0 := by
  unfold Fill.posted
  rw [Finsupp.add_apply, settlement_apart (apart.imp_left And.left),
    settlement_apart (apart.imp_left And.right), add_zero]

end Posted

/-! ## What an order posts -/

section Order

variable [Libmpdec] [Settings] {conf : MarketConf} {rule : MatchRule} {user : ℕ} {w w' : World}

omit [Libmpdec] in
/-- The sums of an asset before and after an order differ by what its fills
post; what it freezes stays with its user. -/
theorem total_of_posts {new : List Fill} {moved : ℚ}
    (accounts : w'.ledger.accounts = w.ledger.accounts + (new.map (Fill.posted conf)).sum +
      (Finsupp.single ⟨user, .freeze, conf.gives rule.side⟩ moved -
        Finsupp.single ⟨user, .available, conf.gives rule.side⟩ moved)) (asset : String) :
    w'.ledger.total asset =
      w.ledger.total asset + (new.map fun f => assetSum asset (f.posted conf)).sum := by
  rw [Ledger.total_eq_assetSum, Ledger.total_eq_assetSum, accounts, map_add, map_add, map_sub,
    assetSum_single, assetSum_single, sub_self, add_zero, map_list_sum, List.map_map]
  rfl

/-- What holds of the accounts after an order in a market of two assets. -/
structure Conserved (conf : MarketConf) (user : ℕ) (w w' : World) (new : List Fill) : Prop where
  fills : w'.fills = w.fills ++ new
  taker : ∀ f ∈ new, f.user f.takerSide = user
  stock : conf.stock ≠ conf.money →
    w'.ledger.total conf.stock =
      w.ledger.total conf.stock - (new.map fun f => f.bidFee.value).sum
  money : conf.stock ≠ conf.money →
    w'.ledger.total conf.money ≤
      w.ledger.total conf.money - (new.map fun f => f.askFee.value).sum
  shortfall : conf.stock ≠ conf.money →
    w.ledger.total conf.money - (new.map fun f => f.askFee.value).sum -
        w'.ledger.total conf.money ≤ new.length * 10 ^ (-assetPrec conf.money) ∧
      (new ≠ [] → w.ledger.total conf.money - (new.map fun f => f.askFee.value).sum -
        w'.ledger.total conf.money < new.length * 10 ^ (-assetPrec conf.money))
  otherAssets : ∀ key : BalanceKey, key.asset ≠ conf.stock → key.asset ≠ conf.money →
    w'.ledger.holds key = w.ledger.holds key
  otherUsers : ∀ key : BalanceKey, key.userId ≠ user →
    (∀ f ∈ new, key.userId ≠ f.user f.takerSide.opposite) →
    w'.ledger.holds key = w.ledger.holds key

omit [Libmpdec] [Settings] in
/-- The fees rounded up exceed the fees by less than one unit each. -/
theorem sum_raiseAt (e : ℤ) (fees : List ℚ) :
    fees.sum ≤ (fees.map (raiseAt e)).sum ∧
      (fees.map (raiseAt e)).sum ≤ fees.sum + fees.length * 10 ^ e ∧
      (fees ≠ [] → (fees.map (raiseAt e)).sum < fees.sum + fees.length * 10 ^ e) := by
  induction fees with
  | nil => simp
  | cons fee fees ih =>
      rcases ih with ⟨lower, upper, _⟩
      have below := le_raiseAt e fee
      have above := raiseAt_lt_add e fee
      simp only [List.map_cons, List.sum_cons, List.length_cons, Nat.cast_add, Nat.cast_one,
        add_mul, one_mul]
      constructor
      · linarith
      · constructor
        · linarith
        · intro _
          linarith

omit [Libmpdec] in
/-- An order conserves what its fills do not charge as fees. -/
theorem OrderPosts.conserved (posts : OrderPosts conf rule user w w') :
    ∃ new, Conserved conf user w w' new := by
  rcases posts with ⟨new, moved, fills, by_, accounts⟩
  have total := total_of_posts accounts
  have frozenApart {key : BalanceKey}
      (apart : key.userId ≠ user ∨ (key.asset ≠ conf.stock ∧ key.asset ≠ conf.money))
      (type : BalanceType) : key ≠ ⟨user, type, conf.gives rule.side⟩ := by
    rintro rfl
    rcases apart with apart | ⟨stock, money⟩
    · exact apart rfl
    · cases side : rule.side
      · exact stock (congrArg conf.gives side)
      · exact money (congrArg conf.gives side)
  have same {key : BalanceKey}
      (apart : key.userId ≠ user ∨ (key.asset ≠ conf.stock ∧ key.asset ≠ conf.money))
      (untouched : ∀ f ∈ new, f.posted conf key = 0) :
      w'.ledger.holds key = w.ledger.holds key := by
    have zero : (new.map (Fill.posted conf)).sum key = 0 := by
      rw [← Finsupp.applyAddHom_apply, map_list_sum, List.map_map]
      apply List.sum_eq_zero
      intro term mem
      rcases List.mem_map.mp mem with ⟨f, member, rfl⟩
      exact untouched f member
    rw [← Ledger.accounts_apply, accounts, Finsupp.add_apply, Finsupp.add_apply,
      Finsupp.sub_apply, zero, Finsupp.single_eq_of_ne (frozenApart apart _),
      Finsupp.single_eq_of_ne (frozenApart apart _), sub_zero, add_zero, add_zero,
      Ledger.accounts_apply]
  have taker : ∀ f ∈ new, f.user f.takerSide = user := by
    intro f mem
    rw [(by_ f mem).takerSide]
    exact (by_ f mem).taker
  have moneyTotal (differ : conf.stock ≠ conf.money) : w'.ledger.total conf.money =
      w.ledger.total conf.money -
        ((new.map fun f => f.askFee.value).map (raiseAt (-assetPrec conf.money))).sum := by
    rw [total, sub_eq_add_neg, List.sum_neg, List.map_map, List.map_map]
    congr 2
    apply List.map_congr_left
    intro f _
    exact f.assetSum_money differ
  have raised := sum_raiseAt (-assetPrec conf.money) (new.map fun f => f.askFee.value)
  rw [List.length_map] at raised
  exists new
  constructor
  · exact fills
  · exact taker
  · intro differ
    rw [total, sub_eq_add_neg, List.sum_neg, List.map_map]
    congr 2
    apply List.map_congr_left
    intro f mem
    exact (by_ f mem).ok.assetSum_stock differ
  · intro differ
    rw [moneyTotal differ]
    linarith [raised.1]
  · intro differ
    rw [moneyTotal differ]
    constructor
    · linarith [raised.2.1]
    · intro some_
      have strict := raised.2.2 (by simpa using some_)
      linarith
  · intro key stock money
    apply same (Or.inr ⟨stock, money⟩)
    intro f _
    exact Fill.posted_apart (Or.inr ⟨stock, money⟩)
  · intro key other makers
    apply same (Or.inl other)
    intro f mem
    apply Fill.posted_apart
    left
    constructor
    · rw [taker f mem]
      exact other
    · exact makers f mem

omit [Libmpdec] [Settings] in
/-- Moving an amount between the two balances of a user keeps every user's sum. -/
theorem holds_of_moved {owner : ℕ} {given : String} {moved : ℚ}
    (accounts : w'.ledger.accounts = w.ledger.accounts +
      (Finsupp.single ⟨owner, .available, given⟩ moved -
        Finsupp.single ⟨owner, .freeze, given⟩ moved)) (user : ℕ) (asset : String) :
    w'.ledger.holds ⟨user, .available, asset⟩ + w'.ledger.holds ⟨user, .freeze, asset⟩ =
      w.ledger.holds ⟨user, .available, asset⟩ + w.ledger.holds ⟨user, .freeze, asset⟩ := by
  have holds (type : BalanceType) : w'.ledger.holds ⟨user, type, asset⟩ =
      w.ledger.holds ⟨user, type, asset⟩ +
        (Finsupp.single (⟨owner, .available, given⟩ : BalanceKey) moved ⟨user, type, asset⟩ -
          Finsupp.single (⟨owner, .freeze, given⟩ : BalanceKey) moved ⟨user, type, asset⟩) := by
    rw [← Ledger.accounts_apply, accounts]
    rfl
  rw [holds .available, holds .freeze,
    single_type_ne (show BalanceType.available ≠ .freeze by decide),
    single_type_ne (show BalanceType.freeze ≠ .available by decide)]
  by_cases same : user = owner ∧ asset = given
  · rcases same with ⟨rfl, rfl⟩
    rw [Finsupp.single_eq_same, Finsupp.single_eq_same]
    ring
  · rw [Finsupp.single_eq_of_ne, Finsupp.single_eq_of_ne]
    · ring
    · intro key
      injection key with owned _ held
      exact same ⟨owned, held⟩
    · intro key
      injection key with owned _ held
      exact same ⟨owned, held⟩

end Order

/-! ## Conservation -/

section Conservation

variable [Libmpdec] [Settings] {e₀ e e' : Engine} {now : Time} {fuel : ℕ} {info : Order}

/-- Trading never creates money: in every reachable state, an accepted limit or
market order takes from the two assets of its market the fees of its fills and
less than one unit of money for each fill, and nothing else; and a cancel keeps
every user's total of every asset. -/
theorem trading_conserves (start : Engine.start = some e₀) (run : Run e₀ e) :
    (∀ {command : Command}, (∃ params, command = .orderPutLimit params ∨
        command = .orderPutMarket params) → command.WellFormed e →
      e.handle now fuel command = some (.order info, e') → e'.world.ledger.exact = true →
      ∃ (m : Market) (new : List Fill), dictFind e.markets info.market = some m ∧
        Conserved m.toMarketConf info.userId e.world e'.world new) ∧
    (∀ {params}, e.handle now fuel (.orderCancel params) = some (.order info, e') →
      e'.world.ledger.exact = true → ∀ user asset,
      e'.world.ledger.holds ⟨user, .available, asset⟩ +
          e'.world.ledger.holds ⟨user, .freeze, asset⟩ =
        e.world.ledger.holds ⟨user, .available, asset⟩ +
          e.world.ledger.holds ⟨user, .freeze, asset⟩) := by
  have inv := (run.kept (engineStart_inv start).1).inv
  constructor
  · rintro command ⟨params, rfl | rfl⟩ wellFormed handled exact
    · rcases onCmdOrderPutLimit_cases handled with
        ⟨⟨_, _, refused⟩, _⟩ | ⟨a, st', read, put, executed, reply, rfl⟩
      · cases refused
      rcases inv.limit read (wellFormed a read) put exact with ⟨found, _, posts⟩
      rcases inv.limit_info found executed with ⟨market, user⟩
      rcases posts.conserved with ⟨new, conserved⟩
      rw [Reply.order.inj reply, user]
      exact ⟨a.market, new, market, conserved⟩
    · rcases onCmdOrderPutMarket_cases handled with
        ⟨⟨_, _, refused⟩, _⟩ | ⟨a, best, st', read, put, executed, reply, rfl⟩
      · cases refused
      rcases inv.marketOrder read (wellFormed a read) put exact with ⟨found, _, posts⟩
      rcases inv.market_info found executed with ⟨market, user⟩
      rcases posts.conserved with ⟨new, conserved⟩
      rw [Reply.order.inj reply, user]
      exact ⟨a.market, new, market, conserved⟩
  · intro params handled exact user asset
    rcases onCmdOrderCancel_cases (Option.some.inj handled) with
      ⟨⟨_, _, refused⟩, _⟩ | ⟨a, ref, order, read, found, _, _, rfl⟩
    · cases refused
    have accounts := (inv.cancel read found exact).2.2
    exact holds_of_moved accounts user asset

end Conservation

section Small

attribute [local instance] smallSettings Libmpdec.reference

/-- The bid of the small engine costs its fees and nothing else. -/
theorem trading_conserves_small : ∃ info m new, smallAnswer = (.order info, smallEngine) ∧
    dictFind smallBefore.markets info.market = some m ∧
    Conserved m.toMarketConf info.userId smallBefore.world smallEngine.world new := by
  rcases smallAnswer_order with ⟨info, answer⟩
  rcases (trading_conserves smallStart_eq smallBefore_run).1 ⟨_, Or.inl rfl⟩
    smallTaker_wellFormed (answer ▸ smallAnswer_eq) smallEngine_exact with
    ⟨m, new, market, conserved⟩
  exact ⟨info, m, new, answer, market, conserved⟩

end Small

end ViabtcServer.MatchEngine
