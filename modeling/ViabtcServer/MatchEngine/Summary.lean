import ViabtcServer.MatchEngine.Arithmetic
import ViabtcServer.MatchEngine.OrderQuery

/-!
# The summaries

`asset.summary` adds up the balances of all users, `market.summary` what is left of the
orders of each book. The frozen balances of an asset are what the books say is offered of
it: the asks of the markets that trade it, and what the bids of the markets that pay with
it may still cost.
-/

namespace ViabtcServer.MatchEngine

open Decimal Container
open MarketPrice (mpdText)

/-! ## The handlers -/

section Handlers

variable [Libmpdec]

/-- What `market_get_status` reports. -/
structure BookStatus where
  askCount : ℕ
  askAmount : Mpd
  bidCount : ℕ
  bidAmount : Mpd

/-- The loop of `market_get_status` over a side. -/
def addLeft (orders : List Order) : Mpd :=
  orders.foldl (fun amount order => mpdAdd amount order.left) mpdZero

/-- `market_get_status`. -/
def marketGetStatus (m : Market) (heap : Ref → Option Order) : BookStatus where
  askCount := m.asks.length
  askAmount := addLeft (m.walk heap .ask)
  bidCount := m.bids.length
  bidAmount := addLeft (m.walk heap .bid)

variable [DecimalText] [Settings]

omit [Settings] in
/-- `get_asset_summary`. -/
def getAssetSummary (e : Engine) (name : String) : Json :=
  let status := balanceStatus e.world.ledger name
  .object [("name", .string name), ("total_balance", .string (mpdText status.total)),
    ("available_count", .integer status.availableCount),
    ("available_balance", .string (mpdText status.available)),
    ("freeze_count", .integer status.freezeCount),
    ("freeze_balance", .string (mpdText status.freeze))]

/-- The turn of `on_cmd_asset_summary` on an argument. -/
def assetSummary (e : Engine) (json : Json) : Except ArgError Json :=
  match jsonString json with
  | .ok asset => if assetExist asset then .ok (getAssetSummary e asset) else .error .invalid
  | .error error => .error error

/-- `on_cmd_asset_summary`. -/
def onCmdAssetSummary (e : Engine) (params : List Json) : Except ArgError Json :=
  match params with
  | [] => .ok (.array (Settings.assets.map fun conf => getAssetSummary e conf.name))
  | _ => (params.mapM (assetSummary e)).map Json.array

omit [Settings] in
/-- `get_market_summary` of a market that has been found. -/
def getMarketSummary (e : Engine) (name : String) (m : Market) : Json :=
  let status := marketGetStatus m e.world.heap
  .object [("name", .string name), ("ask_count", .integer status.askCount),
    ("ask_amount", .string (mpdText status.askAmount)), ("bid_count", .integer status.bidCount),
    ("bid_amount", .string (mpdText status.bidAmount))]

omit [Settings] in
/-- The turn of `on_cmd_market_summary` on an argument. -/
def marketSummary (e : Engine) (json : Json) : Except ArgError Json :=
  match getMarket e.markets json with
  | .ok (name, m) => .ok (getMarketSummary e name m)
  | .error error => .error error

/-- `on_cmd_market_summary`. Without arguments it looks every configured market up, and
goes on with a null pointer where there is none. -/
def onCmdMarketSummary (e : Engine) (params : List Json) : Except ArgError Json :=
  match params with
  | [] => (Settings.markets.mapM fun conf => marketSummary e (.string conf.name)).map Json.array
  | _ => (params.mapM (marketSummary e)).map Json.array

end Handlers

/-! ## Sums by user -/

section Sums

variable {e : Engine} {m : Market} {heap : Ref → Option Order}

theorem Side.eq_ask_or_bid (side : Side) : side = .ask ∨ side = .bid := by
  cases side with
  | ask => exact Or.inl rfl
  | bid => exact Or.inr rfl

/-- The open orders of a market. -/
def Market.openOrders (m : Market) (heap : Ref → Option Order) : List Order :=
  m.walk heap .ask ++ m.walk heap .bid

theorem IndexInv.mem_openOrders (index : IndexInv m heap) {o : Order} :
    o ∈ m.openOrders heap ↔ ∃ ref, m.Rests heap ref o := by
  unfold Market.openOrders Market.walk
  rw [List.mem_append, index.toBookInv.mem_orders, index.toBookInv.mem_orders]
  constructor
  · rintro (⟨ref, rests, _⟩ | ⟨ref, rests, _⟩) <;> exact ⟨ref, rests⟩
  · rintro ⟨ref, rests⟩
    rcases o.side.eq_ask_or_bid with ask | bid
    · exact Or.inl ⟨ref, rests, ask⟩
    · exact Or.inr ⟨ref, rests, bid⟩

theorem IndexInv.openOrders_nodup (index : IndexInv m heap) : (m.openOrders heap).Nodup := by
  have nodup (side : Side) : (m.walk heap side).Nodup := by
    apply (index.toBookInv.orders_sorted side).imp
    rintro o _ lt rfl
    exact lt_irrefl _ lt
  apply List.Nodup.append (nodup .ask) (nodup .bid)
  intro o asks bids
  rcases index.toBookInv.mem_orders.mp asks with ⟨_, _, ask⟩
  rcases index.toBookInv.mem_orders.mp bids with ⟨_, _, bid⟩
  rw [ask] at bid
  cases bid

/-- The sum over part of a list. -/
theorem sum_map_filter {α : Type} (f : α → ℚ) (p : α → Bool) (list : List α) :
    ((list.filter p).map f).sum = (list.map fun x => if p x then f x else 0).sum := by
  induction list with
  | nil => rfl
  | cons x rest ih =>
      by_cases holds : p x
      · rw [List.filter_cons_of_pos holds, List.map_cons, List.sum_cons, ih, List.map_cons,
          List.sum_cons, if_pos holds]
      · rw [List.filter_cons_of_neg holds, ih, List.map_cons, List.sum_cons, if_neg holds,
          zero_add]

/-- Sums over a set and over a list may be taken in either order. -/
theorem sum_sum_map {α : Type} (users : Finset ℕ) (f : ℕ → α → ℚ) (list : List α) :
    ∑ user ∈ users, (list.map (f user)).sum =
      (list.map fun x => ∑ user ∈ users, f user x).sum := by
  induction list with
  | nil => simp
  | cons x rest ih =>
      simp only [List.map_cons, List.sum_cons]
      rw [Finset.sum_add_distrib, ih]

/-- What a user has frozen in a market is a sum over the orders of the user. -/
theorem IndexInv.frozen_eq (index : IndexInv m heap) (user : ℕ) (asset : String) :
    m.frozen heap user asset = ((m.openOrders heap).map fun o =>
      if o.userId = user then o.freezes m.toMarketConf asset else 0).sum := by
  have own : m.frozen heap user asset =
      (((m.userList user).filterMap heap).map (Order.freezes m.toMarketConf asset)).sum := by
    have live := index.userList_live user
    unfold Market.frozen
    generalize m.userList user = list at live
    induction list with
    | nil => rfl
    | cons ref rest ih =>
        rcases Option.isSome_iff_exists.mp (live ref List.mem_cons_self) with ⟨o, found⟩
        have rest := ih fun ref mem => live ref (List.mem_cons_of_mem _ mem)
        rw [List.filterMap_cons_some found, List.map_cons, List.map_cons, List.sum_cons,
          List.sum_cons, rest, found]
        rfl
  have nodup : ((m.userList user).filterMap heap).Nodup := by
    apply (index.userOrders_sorted user).imp
    rintro o _ lt rfl
    exact lt_irrefl _ lt
  have perm : ((m.userList user).filterMap heap).Perm
      ((m.openOrders heap).filter fun o => o.userId = user) := by
    apply (List.perm_ext_iff_of_nodup nodup (index.openOrders_nodup.filter _)).mpr
    intro o
    rw [index.mem_userOrders, List.mem_filter, index.mem_openOrders, decide_eq_true_eq,
      exists_and_right]
  rw [own, (perm.map _).sum_eq, sum_map_filter]
  simp only [decide_eq_true_eq]

/-- A sum over the entries of one key is the entry of the key. -/
theorem dictSum_single (l : Ledger) (key : BalanceKey) :
    dictSum (fun other value => if other = key then value.value else 0) l.balances =
      l.holds key := by
  have others {dict : Dict BalanceKey Mpd} (absent : dictFind dict key = none) :
      dictSum (fun other value => if other = key then value.value else 0) dict = 0 := by
    apply List.sum_eq_zero
    intro q mem
    rcases List.mem_map.mp mem with ⟨entry, member, rfl⟩
    apply if_neg
    rintro rfl
    rw [mem_entries_iff.mp member] at absent
    cases absent
  cases found : dictFind l.balances key with
  | none => rw [others found, Ledger.holds_of_none found]
  | some value =>
      rw [dictSum_delete _ found, others (dictFind_delete), add_zero, if_pos rfl,
        Ledger.holds_of_some found]

/-- What all users have frozen of an asset is what all open orders freeze of it. -/
theorem EngineInv.frozen_total [Settings] (inv : EngineInv e) (asset : String) :
    entrySum (fun key => key.asset = asset ∧ key.type = .freeze) e.world.ledger.balances.entries =
      dictSum (fun _ m => ((m.openOrders e.world.heap).map
        (Order.freezes m.toMarketConf asset)).sum) e.markets := by
  -- the users of the balances and of the orders
  let users : Finset ℕ := (e.world.ledger.balances.entries.map (fun entry => entry.1.userId) ++
    e.markets.entries.flatMap fun entry =>
      (entry.2.openOrders e.world.heap).map Order.userId).toFinset
  have holders : entrySum (fun key => key.asset = asset ∧ key.type = .freeze)
      e.world.ledger.balances.entries =
        ∑ user ∈ users, e.world.ledger.holds ⟨user, .freeze, asset⟩ := by
    have single (user : ℕ) := (dictSum_single e.world.ledger ⟨user, .freeze, asset⟩).symm
    rw [Finset.sum_congr rfl fun user _ => single user]
    unfold dictSum
    rw [sum_sum_map]
    unfold entrySum
    apply congrArg List.sum
    apply List.map_congr_left
    intro entry mem
    have member : entry.1.userId ∈ users := by
      rw [List.mem_toFinset]
      exact List.mem_append_left _ (List.mem_map_of_mem mem)
    by_cases counted : entry.1.asset = asset ∧ entry.1.type = .freeze
    · have key (user : ℕ) : entry.1 = ⟨user, .freeze, asset⟩ ↔ entry.1.userId = user := by
        constructor
        · intro same
          rw [same]
        · rintro rfl
          rw [← counted.1, ← counted.2]
      simp only [key]
      rw [Finset.sum_ite_eq, if_pos member]
      simp [counted]
    · have key (user : ℕ) : entry.1 ≠ ⟨user, .freeze, asset⟩ := by
        intro same
        rw [same] at counted
        exact counted ⟨rfl, rfl⟩
      simp only [if_neg (key _), Finset.sum_const_zero]
      simp [counted]
  rw [holders, Finset.sum_congr rfl fun user _ => inv.backed user asset]
  unfold frozenBy dictSum
  rw [sum_sum_map]
  apply congrArg List.sum
  apply List.map_congr_left
  intro entry mem
  have index := (inv.market (mem_entries_iff.mp mem)).index
  rw [Finset.sum_congr rfl fun user _ => index.frozen_eq user asset, sum_sum_map]
  apply congrArg List.sum
  apply List.map_congr_left
  intro o open_
  have member : o.userId ∈ users := by
    rw [List.mem_toFinset]
    apply List.mem_append_right
    exact List.mem_flatMap.mpr ⟨entry, mem, List.mem_map_of_mem open_⟩
  rw [Finset.sum_ite_eq, if_pos member]

end Sums

/-! ## The two summaries agree -/

section Agreement

variable {e e₀ : Engine} {m : Market} {heap : Ref → Option Order} {asset name : String}
  {side : Side}

/-- What the orders of a side offer: for an ask what is left, for a bid what that costs. -/
def Market.offered (m : Market) (heap : Ref → Option Order) (side : Side) : ℚ :=
  ((m.walk heap side).map Order.frozen).sum

/-- The sum of what is left on a side. -/
def Market.leftOn (m : Market) (heap : Ref → Option Order) (side : Side) : ℚ :=
  ((m.walk heap side).map fun o => o.left.value).sum

variable [Settings]

/-- What the open orders of a market freeze of an asset. -/
theorem MarketInv.freezes_sum {w : World} (inv : MarketInv m w) (asset : String) :
    ((m.openOrders w.heap).map (Order.freezes m.toMarketConf asset)).sum =
      (if m.stock = asset then m.offered w.heap .ask else 0) +
        if m.money = asset then m.offered w.heap .bid else 0 := by
  have one (side : Side) : ((m.walk w.heap side).map (Order.freezes m.toMarketConf asset)).sum =
      if m.gives side = asset then m.offered w.heap side else 0 := by
    have term : ∀ o ∈ m.walk w.heap side, o.freezes m.toMarketConf asset =
        if m.gives side = asset then o.frozen else 0 := by
      intro o mem
      rcases inv.index.toBookInv.mem_orders.mp mem with ⟨ref, rests, sided⟩
      rw [Order.freezes, sided, (inv.resting rests).freeze]
    rw [List.map_congr_left term]
    split
    · rfl
    · simp
  rw [Market.openOrders, List.map_append, List.sum_append, one, one]
  rfl

variable [Libmpdec]

/-- The loop adds up what is left, when that fits the context. -/
theorem MarketInv.addLeft_value {w : World} (inv : MarketInv m w) (side : Side)
    (small : m.leftOn w.heap side < capacity m.stockPrec) :
    (addLeft (m.walk w.heap side)).value = m.leftOn w.heap side := by
  have each : ∀ o ∈ m.walk w.heap side, o.left.isFinite ∧ 0 ≤ o.left.value ∧
      OnGrid (-m.stockPrec) o.left.value := by
    intro o mem
    rcases inv.index.toBookInv.mem_orders.mp mem with ⟨ref, rests, _⟩
    have resting := inv.resting rests
    exact ⟨resting.leftFinite, resting.leftPos.le, resting.leftDigits.onGrid⟩
  have all (orders : List Order) (each : ∀ o ∈ orders, o.left.isFinite ∧ 0 ≤ o.left.value ∧
      OnGrid (-m.stockPrec) o.left.value)
      (small : (orders.map fun o => o.left.value).sum < capacity m.stockPrec) :
      (addLeft orders).isFinite ∧ (addLeft orders).value = (orders.map fun o => o.left.value).sum ∧
        0 ≤ (addLeft orders).value ∧ OnGrid (-m.stockPrec) (addLeft orders).value := by
    induction orders using List.reverseRecOn with
    | nil => exact ⟨mpdZero_isFinite, mpdZero_value, mpdZero_value.ge, mpdZero_value ▸ .zero _⟩
    | append_singleton before last ih =>
        rcases each last (by simp) with ⟨finite, nonneg, grid⟩
        rw [List.map_append, List.sum_append, List.map_singleton, List.sum_singleton] at small ⊢
        have earlier := ih (fun o mem => each o (List.mem_append_left _ mem)) (by linarith)
        rcases earlier with ⟨sumFinite, sum, sumNonneg, sumGrid⟩
        have step : addLeft (before ++ [last]) = mpdAdd (addLeft before) last.left := by
          simp [addLeft]
        have fits : InCapacity m.stockPrec ((addLeft before).value + last.left.value) := by
          apply InCapacity.of_nonneg (sumGrid.add grid) (add_nonneg sumNonneg nonneg)
          rw [sum]
          exact small
        have value := mpdAdd_fits sumFinite finite fits
        rw [step]
        refine ⟨Libmpdec.add_finite sumFinite finite, ?_, ?_, ?_⟩
        · rw [value, sum]
        · rw [value]
          exact add_nonneg sumNonneg nonneg
        · rw [value]
          exact sumGrid.add grid
  exact (all _ each small).2.1

/-- A live run whose commands leave room is a run. -/
theorem LiveRun.reaches (run : LiveRun Command.Bounded e₀ e) (ample : Ample e₀) :
    Reaches e₀ e := by
  induction run with
  | refl => exact .start
  | tail before step ih =>
      have kept := LiveRun.ample (before.tail step) ample
      cases step with
      | command bounded run => exact ih.step (.command bounded.1 run kept.exact)
      | timer now => exact ih.step (.timer _ now)

omit [Settings] [Libmpdec] in
/-- The entries of an asset are the available and the frozen ones. -/
theorem entrySum_types (asset : String) (entries : List ((_ : BalanceKey) × Mpd)) :
    entrySum (fun key => key.asset = asset) entries =
      entrySum (fun key => key.asset = asset ∧ key.type = .available) entries +
        entrySum (fun key => key.asset = asset ∧ key.type = .freeze) entries := by
  unfold entrySum
  rw [← List.sum_map_add]
  apply congrArg List.sum
  apply List.map_congr_left
  intro entry _
  cases type : entry.1.type with
  | available => simp [type]
  | freeze => simp [type]

variable [DecimalText]

/-- What the summaries say of assets and of markets. -/
structure SummariesAgree (e : Engine) : Prop where
  /-- The total of an asset is what is available and what is frozen. -/
  total : ∀ {asset}, assetExist asset →
    (balanceStatus e.world.ledger asset).total.value =
      (balanceStatus e.world.ledger asset).available.value +
        (balanceStatus e.world.ledger asset).freeze.value
  /-- Frozen is what the asks of the markets that trade the asset have left, and what the
  bids of the markets that pay with it may still cost. -/
  frozen : ∀ {asset}, assetExist asset →
    (balanceStatus e.world.ledger asset).freeze.value = dictSum (fun _ m =>
      (if m.stock = asset then (marketGetStatus m e.world.heap).askAmount.value else 0) +
        if m.money = asset then
          ((m.walk e.world.heap .bid).map fun o => o.price.value * o.left.value).sum
        else 0) e.markets
  /-- A market counts the orders of each side and what is left of them. -/
  market : ∀ {name m}, dictFind e.markets name = some m →
    ((marketGetStatus m e.world.heap).askCount = (m.walk e.world.heap .ask).length ∧
      (marketGetStatus m e.world.heap).askAmount.value = m.leftOn e.world.heap .ask) ∧
    (marketGetStatus m e.world.heap).bidCount = (m.walk e.world.heap .bid).length ∧
      (marketGetStatus m e.world.heap).bidAmount.value = m.leftOn e.world.heap .bid
  /-- Without arguments every asset and every market is in the answer. -/
  assets : onCmdAssetSummary e [] =
    .ok (.array (Settings.assets.map fun conf => getAssetSummary e conf.name))
  markets : ∃ found : List Market,
    (Settings.markets.map fun conf => dictFind e.markets conf.name) = found.map some ∧
    onCmdMarketSummary e [] =
      .ok (.array (found.map fun m => getMarketSummary e m.name m))

omit [Libmpdec] [DecimalText] in
/-- Every configured market is found. -/
theorem Rooted.configured (start : Engine.start = some e₀) (rooted : Rooted e₀ e)
    {conf : MarketConf} (configured : conf ∈ (Settings.markets : List MarketConf)) :
    ∃ m, dictFind e.markets conf.name = some m := by
  have none_ := slice_markets start rooted
  cases found : dictFind e.markets conf.name with
  | some m => exact ⟨m, rfl⟩
  | none =>
      apply absurd _ none_
      apply List.mem_map.mpr
      exact ⟨conf, configured, by rw [found, Option.map_none]⟩

omit [Settings] in
/-- The answer about markets that are all found. -/
theorem mapM_marketSummary (named : ∀ {name m}, dictFind e.markets name = some m → m.name = name)
    (confs : List MarketConf) (known : ∀ conf ∈ confs, ∃ m, dictFind e.markets conf.name = some m) :
    ∃ found : List Market,
      (confs.map fun conf => dictFind e.markets conf.name) = found.map some ∧
      (confs.mapM fun conf => marketSummary e (.string conf.name)) =
        .ok (found.map fun m => getMarketSummary e m.name m) := by
  induction confs with
  | nil => exact ⟨[], rfl, rfl⟩
  | cons conf rest ih =>
      rcases known conf List.mem_cons_self with ⟨m, found⟩
      rcases ih fun conf mem => known conf (List.mem_cons_of_mem _ mem) with ⟨others, all, answer⟩
      refine ⟨m :: others, ?_, ?_⟩
      · rw [List.map_cons, List.map_cons, found, all]
      · have one : marketSummary e (.string conf.name) = .ok (getMarketSummary e m.name m) := by
          unfold marketSummary
          rw [getMarket_eq_ok.mpr ⟨rfl, found⟩, named found]
        rw [List.mapM_cons, one, answer]
        rfl

/-- Over every live run whose commands leave room, the summary of an asset is in agreement
with the summaries of the markets, as long as what is left on each side fits the context. -/
theorem summaries_agree (start : Engine.start = some e₀) (run : LiveRun Command.Bounded e₀ e)
    (fits : ∀ {name m}, dictFind e.markets name = some m → ∀ side,
      m.leftOn e.world.heap side < capacity m.stockPrec) : SummariesAgree e := by
  have ample := run.ample (engineStart_ample start)
  have inv := ample.inv
  have rooted := ((run.reaches (engineStart_ample start)).sane start).rooted
  have count {name : String} {m : Market} (found : dictFind e.markets name = some m)
      (side : Side) : (m.book side).length = (m.walk e.world.heap side).length :=
    ((inv.market found).index.book_live side).length.symm
  constructor
  · intro asset exist
    rcases Option.isSome_iff_exists.mp exist with ⟨type, known⟩
    rcases (arithmetic_exact start run).2.2 asset type known with ⟨total, available, freeze⟩
    have whole : e.world.ledger.total asset =
        entrySum (fun key => key.asset = asset) e.world.ledger.balances.entries := by
      simp [entrySum, Ledger.total, dictSum]
    rw [total, available, freeze, whole, entrySum_types]
  · intro asset exist
    rcases Option.isSome_iff_exists.mp exist with ⟨type, known⟩
    rw [((arithmetic_exact start run).2.2 asset type known).2.2, inv.frozen_total]
    apply congrArg List.sum
    apply List.map_congr_left
    intro entry mem
    have found := mem_entries_iff.mp mem
    have market := inv.market found
    have asks : (entry.2).offered e.world.heap .ask = (entry.2).leftOn e.world.heap .ask := by
      unfold Market.offered Market.leftOn
      apply congrArg List.sum
      apply List.map_congr_left
      intro o open_
      rcases market.index.toBookInv.mem_orders.mp open_ with ⟨_, _, side⟩
      rw [Order.frozen, side]
    have bids : (entry.2).offered e.world.heap .bid =
        ((entry.2).walk e.world.heap .bid |>.map fun o => o.price.value * o.left.value).sum := by
      unfold Market.offered
      apply congrArg List.sum
      apply List.map_congr_left
      intro o open_
      rcases market.index.toBookInv.mem_orders.mp open_ with ⟨_, _, side⟩
      rw [Order.frozen, side]
    apply (market.freezes_sum asset).trans
    rw [asks, bids, ← market.addLeft_value .ask (fits found .ask)]
    rfl
  · intro name m found
    have market := inv.market found
    exact ⟨⟨count found .ask, market.addLeft_value .ask (fits found .ask)⟩, count found .bid,
      market.addLeft_value .bid (fits found .bid)⟩
  · rfl
  · rcases mapM_marketSummary inv.named Settings.markets fun conf configured =>
      rooted.configured start configured with ⟨found, all, answer⟩
    refine ⟨found, all, ?_⟩
    unfold onCmdMarketSummary
    rw [answer]
    rfl

end Agreement

section Small

attribute [local instance] smallSettings Libmpdec.reference sciPrinting

/-- The small engine has one market. -/
theorem boundedEngine_fits {name : String} {m : Market}
    (found : dictFind boundedEngine.markets name = some m) (side : Side) :
    m.leftOn boundedEngine.world.heap side < capacity m.stockPrec := by
  have all : ∀ entry ∈ boundedEngine.markets.entries, ∀ side ∈ [Side.ask, .bid],
      (entry.2).leftOn boundedEngine.world.heap side < capacity entry.2.stockPrec := by
    decide +kernel
  have mem : (⟨name, m⟩ : (_ : String) × Market) ∈ boundedEngine.markets.entries :=
    mem_entries_iff.mpr found
  cases side with
  | ask => exact all _ mem .ask (by simp)
  | bid => exact all _ mem .bid (by simp)

/-- The rest of the bid, one unit at a price of twelve, is all that is frozen. -/
theorem summaries_agree_small : SummariesAgree boundedEngine ∧
    (balanceStatus boundedEngine.world.ledger "CNY").freeze.value = 12 :=
  ⟨summaries_agree smallStart_eq boundedEngine_run boundedEngine_fits, by decide +kernel⟩

end Small

end ViabtcServer.MatchEngine
