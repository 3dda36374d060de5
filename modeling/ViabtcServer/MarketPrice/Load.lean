import ViabtcServer.Decimal.Alike
import ViabtcServer.MarketPrice.Dirty

/-!
# Starting the market price server

The process reads the k-lines, the recent deals and the last price of the listed
markets from Redis, and the offset its messages go on from.
-/

namespace ViabtcServer.MarketPrice

open Decimal Container MatchEngine

section Load

variable [Libmpdec]

/-- The k-line `load_market_kline` adds for an entry: none if it is older than
`start`, unless `start` is zero, or its text is no k-line. -/
def loadKline (start timestamp : ℤ) (text : List String) : Option KlineInfo :=
  if start ≠ 0 ∧ timestamp < start then none else klineFromStr text

/-- `load_market_kline`. -/
def loadMarketKline (stored : Dict ℤ (List String)) (start : ℤ) : Dict ℤ KlineInfo :=
  stored.entries.foldl (dictFill (loadKline start)) ∅

/-- `load_market_deals`. -/
def loadMarketDeals (stored : List DealJson) : List DealJson :=
  stored.take marketDealsMax

/-- `load_market_last`; `none` is its error, a text that is no decimal. -/
def loadMarketLast (stored : Option String) (last : Mpd) : Option Mpd :=
  match stored with
  | none => some last
  | some text => decimal text

variable [Settings]

/-- `load_market`, once Redis answers. -/
def loadMarket (r : Redis) (now : ℤ) (info : MarketInfo) : Option MarketInfo := do
  let last ← loadMarketLast (r.last info.name) info.last
  some
    { info with
      klines := fun type =>
        loadMarketKline (r.klines info.name type) ((keepStart now type).getD 0)
      dealsJson := loadMarketDeals (r.deals info.name)
      last := last }

/-- The loop of `init_market`; a name listed again gets a market nobody finds. -/
def initMarkets (r : Redis) (now : ℤ) :
    List String → Dict String MarketInfo → Option (Dict String MarketInfo)
  | [], markets => some markets
  | name :: names, markets => do
      let info ← loadMarket r now (createMarket name)
      initMarkets r now names ((dictAdd markets name info).getD markets)

/-- `init_message`; `none` is a process that does not come up. `get_message_offset`
is zero where there is none. -/
def initMessage (r : Redis) (now : ℤ) (names : List String) : Option State := do
  let markets ← initMarkets r now names ∅
  let offset := r.offset.getD 0
  if offset < 0 then none else some ⟨markets, 0, offset⟩

end Load

/-! ## What is loaded -/

/-- A market as it is known so far; one without deals is as it is created. -/
def marketInfo (markets : Dict String MarketInfo) (name : String) : MarketInfo :=
  (dictFind markets name).getD (createMarket name)

def State.info (s : State) (name : String) : MarketInfo :=
  marketInfo s.markets name

theorem marketInfo_of_some {markets : Dict String MarketInfo} {name : String} {info : MarketInfo}
    (found : dictFind markets name = some info) : marketInfo markets name = info := by
  unfold marketInfo
  rw [found, Option.getD_some]

@[simp]
theorem marketInfo_replace {markets : Dict String MarketInfo} {name : String} {info : MarketInfo} :
    marketInfo (dictReplace markets name info) name = info :=
  marketInfo_of_some dictFind_replace

theorem marketInfo_replace_ne {markets : Dict String MarketInfo} {name other : String}
    {info : MarketInfo} (differ : other ≠ name) :
    marketInfo (dictReplace markets name info) other = marketInfo markets other := by
  unfold marketInfo
  rw [dictFind_replace_ne differ]

section Loaded

variable [Libmpdec] {stored : Dict ℤ (List String)} {start t : ℤ}

theorem dictFind_loadMarketKline :
    dictFind (loadMarketKline stored start) t = (dictFind stored t).bind (loadKline start t) :=
  dictFind_foldl_fill (loadKline start) stored t

variable [Settings] {r : Redis} {now : ℤ} {names : List String} {name : String}
  {markets markets' : Dict String MarketInfo} {info : MarketInfo} {s : State}

theorem loadMarket_some {loaded : MarketInfo} (ok : loadMarket r now info = some loaded) :
    loaded =
      { info with
        klines := fun type =>
          loadMarketKline (r.klines info.name type) ((keepStart now type).getD 0)
        dealsJson := loadMarketDeals (r.deals info.name)
        last := loaded.last } ∧
      loadMarketLast (r.last info.name) info.last = some loaded.last := by
  unfold loadMarket at ok
  obtain ⟨last, read, same⟩ := Option.bind_eq_some_iff.mp ok
  obtain rfl := Option.some.inj same
  exact ⟨rfl, read⟩

/-- A listed market is loaded, unless it is there already, and no other is added. -/
theorem initMarkets_find (ok : initMarkets r now names markets = some markets') :
    dictFind markets' name = (dictFind markets name).or
      (if name ∈ names then loadMarket r now (createMarket name) else none) := by
  induction names generalizing markets with
  | nil =>
      obtain rfl := Option.some.inj ok
      simp
  | cons first names ih =>
      obtain ⟨loaded, read, rest⟩ := Option.bind_eq_some_iff.mp ok
      rw [ih rest]
      by_cases own : name = first
      · subst own
        rw [if_pos List.mem_cons_self, read]
        cases found : dictFind markets name with
        | some info =>
            rw [dictAdd_of_present found, Option.getD_none, found, Option.some_or, Option.some_or]
        | none =>
            rw [dictAdd_of_fresh found, Option.getD_some, dictFind_replace, Option.some_or,
              Option.none_or]
      · have same : dictFind ((dictAdd markets first loaded).getD markets) name =
            dictFind markets name := by
          cases found : dictFind markets first with
          | some info => rw [dictAdd_of_present found, Option.getD_none]
          | none => rw [dictAdd_of_fresh found, Option.getD_some, dictFind_replace_ne own]
        rw [same]
        simp [own]

theorem initMarkets_loads (ok : initMarkets r now names markets = some markets')
    (listed : name ∈ names) : (loadMarket r now (createMarket name)).isSome = true := by
  induction names generalizing markets with
  | nil => cases listed
  | cons first names ih =>
      obtain ⟨loaded, read, rest⟩ := Option.bind_eq_some_iff.mp ok
      rcases List.mem_cons.mp listed with rfl | later
      · rw [read]
        rfl
      · exact ih rest later

/-- A process that came up knows a listed market as it was loaded, and nothing of
the others. -/
theorem initMessage_info (up : initMessage r now names = some s) (name : String) :
    (name ∈ names ∧ loadMarket r now (createMarket name) = some (s.info name)) ∨
      (name ∉ names ∧ s.info name = createMarket name) := by
  obtain ⟨markets, ok, same⟩ := Option.bind_eq_some_iff.mp up
  simp only at same
  split at same
  · cases same
  obtain rfl := Option.some.inj same
  unfold State.info marketInfo
  simp only [initMarkets_find ok, dictFind_empty, Option.none_or]
  by_cases listed : name ∈ names
  · obtain ⟨info, read⟩ := Option.isSome_iff_exists.mp (initMarkets_loads ok listed)
    left
    rw [if_pos listed, read]
    exact ⟨listed, rfl⟩
  · right
    rw [if_neg listed]
    exact ⟨listed, rfl⟩

theorem initMessage_offset (up : initMessage r now names = some s) :
    s.lastOffset = r.offset.getD 0 ∧ 0 ≤ s.lastOffset := by
  obtain ⟨markets, _, same⟩ := Option.bind_eq_some_iff.mp up
  simp only at same
  split at same
  · cases same
  · rename_i nonneg
    obtain rfl := Option.some.inj same
    exact ⟨rfl, not_lt.mp nonneg⟩

theorem initMessage_named (up : initMessage r now names = some s) : Named s.markets := by
  intro name info found
  have known : s.info name = info := marketInfo_of_some found
  rw [← known]
  rcases initMessage_info up name with ⟨_, read⟩ | ⟨_, fresh⟩
  · rw [(loadMarket_some read).1]
    rfl
  · rw [fresh]
    rfl

end Loaded

end ViabtcServer.MarketPrice
