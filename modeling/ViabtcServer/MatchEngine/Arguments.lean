import ViabtcServer.MatchEngine.Server

/-!
# Reading arguments

Which parameter lists the handlers and the log replay accept, and what the
accepted decimals satisfy.
-/

namespace ViabtcServer.MatchEngine

open Decimal Container

/-! ## Single arguments -/

/-- A reader that succeeds after another succeeds in both. -/
theorem Except.bind_eq_ok {ε α β : Type} {x : Except ε α} {f : α → Except ε β} {b : β} :
    x >>= f = .ok b ↔ ∃ a, x = .ok a ∧ f a = .ok b := by
  cases x <;> simp [bind, Except.bind]

@[simp]
theorem jsonInteger_eq_ok {json : Json} {value : ℤ} :
    jsonInteger json = .ok value ↔ json = .integer value := by
  cases json <;> simp [jsonInteger]

@[simp]
theorem jsonString_eq_ok {json : Json} {value : String} :
    jsonString json = .ok value ↔ json = .string value := by
  cases json <;> simp [jsonString]

@[simp]
theorem jsonObject_eq_ok {json : Json} {fields : List (String × Json)} :
    jsonObject json = .ok fields ↔ json = .object fields := by
  cases json <;> simp [jsonObject]

theorem getMarket_eq_ok {markets : Dict String Market} {json : Json} {name : String} {m : Market} :
    getMarket markets json = .ok (name, m) ↔
      json = .string name ∧ dictFind markets name = some m := by
  cases json with
  | string text =>
      cases found : dictFind markets text with
      | none =>
          simp only [getMarket, jsonString, found, reduceCtorEq, Json.string.injEq, false_iff,
            not_and]
          rintro rfl
          simp [found]
      | some other =>
          simp only [getMarket, jsonString, found, Except.ok.injEq, Prod.mk.injEq,
            Json.string.injEq]
          constructor
          · rintro ⟨rfl, rfl⟩
            exact ⟨rfl, found⟩
          · rintro ⟨rfl, same⟩
            exact ⟨rfl, Option.some.inj (found.symm.trans same)⟩
  | _ => simp [getMarket, jsonString]

theorem jsonSource_eq_ok {tooLong : String → Bool} {json : Json} {source : String} :
    jsonSource tooLong json = .ok source ↔ json = .string source ∧ tooLong source = false := by
  cases json with
  | string text =>
      cases long : tooLong text with
      | true =>
          simp only [jsonSource, jsonString, long, if_true, reduceCtorEq, Json.string.injEq,
            false_iff, not_and]
          rintro rfl
          simp [long]
      | false =>
          simp only [jsonSource, jsonString, long, Bool.false_eq_true, if_false, Except.ok.injEq,
            Json.string.injEq]
          constructor
          · rintro rfl
            exact ⟨rfl, long⟩
          · exact fun same => same.1
  | _ => simp [jsonSource, jsonString]

section Decimals

variable [Libmpdec] {prec : ℤ} {json : Json} {value : Mpd}

theorem jsonDecimal_eq_ok : jsonDecimal prec json = .ok value ↔
    ∃ text, json = .string text ∧ decimal text prec = some value := by
  cases json with
  | string text =>
      cases read : decimal text prec <;> simp [jsonDecimal, jsonString, read]
  | _ => simp [jsonDecimal, jsonString]

/-- A number that is read has no more digits than the context. -/
theorem jsonDecimal_sigDigits (read : jsonDecimal prec json = .ok value)
    (finite : value.isFinite) : SigDigits mpdCtx value.value := by
  obtain ⟨text, _, converted⟩ := jsonDecimal_eq_ok.mp read
  obtain ⟨set, conversion, same⟩ := Option.map_eq_some_iff.mp converted
  split at same
  · obtain rfl := same
    rw [isFinite_rescale] at finite
    rw [Libmpdec.rescale_value _ finite]
    exact (Libmpdec.setString_digits conversion finite).truncateAt _
  · obtain rfl := same
    exact Libmpdec.setString_digits conversion finite

/-- Nor has it digits behind the least exponent. -/
theorem jsonDecimal_onGrid (read : jsonDecimal prec json = .ok value) (finite : value.isFinite) :
    OnGrid mpdEtiny value.value :=
  (jsonDecimal_sigDigits read finite).onGrid

theorem jsonPositive_eq_ok : jsonPositive prec json = .ok value ↔
    jsonDecimal prec json = .ok value ∧ ¬ mpdCmp value mpdZero ≤ 0 := by
  unfold jsonPositive
  cases jsonDecimal prec json with
  | error _ => simp
  | ok other =>
      by_cases refused : mpdCmp other mpdZero ≤ 0
      · simp only [if_pos refused, reduceCtorEq, Except.ok.injEq, false_iff, not_and, not_not]
        rintro rfl
        exact refused
      · simp only [if_neg refused, Except.ok.injEq]
        constructor
        · rintro rfl
          exact ⟨rfl, refused⟩
        · exact fun same => same.1

theorem jsonFee_eq_ok : jsonFee prec json = .ok value ↔
    jsonDecimal prec json = .ok value ∧
      ¬ (mpdCmp value mpdZero < 0 ∨ mpdCmp value mpdOne ≥ 0) := by
  unfold jsonFee
  cases jsonDecimal prec json with
  | error _ => simp
  | ok other =>
      by_cases refused : mpdCmp other mpdZero < 0 ∨ mpdCmp other mpdOne ≥ 0
      · simp only [if_pos refused, reduceCtorEq, Except.ok.injEq, false_iff, not_and, not_not]
        rintro rfl
        exact refused
      · simp only [if_neg refused, Except.ok.injEq]
        constructor
        · rintro rfl
          exact ⟨rfl, refused⟩
        · exact fun same => same.1

/-- A finite amount or price that is let through is positive. -/
theorem jsonPositive_pos (read : jsonPositive prec json = .ok value) (finite : value.isFinite) :
    0 < value.value := by
  have passed := (jsonPositive_eq_ok.mp read).2
  rwa [mpdCmp_le_zero finite mpdZero_isFinite, mpdZero_value, not_le] at passed

/-- A finite fee that is let through lies in `[0, 1)`. -/
theorem jsonFee_range (read : jsonFee prec json = .ok value) (finite : value.isFinite) :
    0 ≤ value.value ∧ value.value < 1 := by
  have passed := (jsonFee_eq_ok.mp read).2
  rwa [not_or, mpdCmp_lt_zero finite mpdZero_isFinite, mpdZero_value, not_lt, ge_iff_le,
    mpdCmp_ge_zero finite mpdOne_isFinite, mpdOne_value, not_le] at passed

end Decimals

/-! ## Parameter lists -/

variable [Libmpdec] {tooLong tooLong' : String → Bool} {markets : Dict String Market}
  {params : List Json}

/-- The parameter lists read as a limit order. -/
theorem readLimitArgs_eq_ok {a : LimitArgs} : readLimitArgs tooLong markets params = .ok a ↔
    ∃ user side amount price takerFee makerFee,
      params = [.integer user, .string a.name, side, amount, price, takerFee, makerFee,
        .string a.source] ∧
      a.userId = toUint32 user ∧ dictFind markets a.name = some a.market ∧
      jsonSide side = .ok a.side ∧ jsonPositive a.market.stockPrec amount = .ok a.amount ∧
      jsonPositive a.market.moneyPrec price = .ok a.price ∧
      jsonFee a.market.feePrec takerFee = .ok a.takerFee ∧
      jsonFee a.market.feePrec makerFee = .ok a.makerFee ∧ tooLong a.source = false := by
  constructor
  · intro read
    unfold readLimitArgs at read
    split at read
    · simp only [Except.bind_eq_ok, jsonInteger_eq_ok, Prod.exists, getMarket_eq_ok,
        jsonSource_eq_ok] at read
      obtain ⟨user, rfl, name, m, ⟨rfl, found⟩, side, sideRead, amount, amountRead, price,
        priceRead, takerFee, takerRead, makerFee, makerRead, source, ⟨rfl, short⟩, result⟩ := read
      obtain rfl := Except.ok.inj result
      exact ⟨_, _, _, _, _, _, rfl, rfl, found, sideRead, amountRead, priceRead, takerRead,
        makerRead, short⟩
    · cases read
  · rintro ⟨user, side, amount, price, takerFee, makerFee, rfl, userId, found, sideRead,
      amountRead, priceRead, takerRead, makerRead, short⟩
    simp only [readLimitArgs, Except.bind_eq_ok, jsonInteger_eq_ok, Prod.exists, getMarket_eq_ok,
      jsonSource_eq_ok]
    refine ⟨user, rfl, a.name, a.market, ⟨rfl, found⟩, a.side, sideRead, a.amount, amountRead,
      a.price, priceRead, a.takerFee, takerRead, a.makerFee, makerRead, a.source, ⟨rfl, short⟩, ?_⟩
    rw [← userId]
    rfl

/-- The parameter lists read as a market order. -/
theorem readMarketArgs_eq_ok {a : MarketArgs} : readMarketArgs tooLong markets params = .ok a ↔
    ∃ user side amount takerFee,
      params = [.integer user, .string a.name, side, amount, takerFee, .string a.source] ∧
      a.userId = toUint32 user ∧ dictFind markets a.name = some a.market ∧
      jsonSide side = .ok a.side ∧ jsonPositive a.market.stockPrec amount = .ok a.amount ∧
      jsonFee a.market.feePrec takerFee = .ok a.takerFee ∧ tooLong a.source = false := by
  constructor
  · intro read
    unfold readMarketArgs at read
    split at read
    · simp only [Except.bind_eq_ok, jsonInteger_eq_ok, Prod.exists, getMarket_eq_ok,
        jsonSource_eq_ok] at read
      obtain ⟨user, rfl, name, m, ⟨rfl, found⟩, side, sideRead, amount, amountRead, takerFee,
        takerRead, source, ⟨rfl, short⟩, result⟩ := read
      obtain rfl := Except.ok.inj result
      exact ⟨_, _, _, _, rfl, rfl, found, sideRead, amountRead, takerRead, short⟩
    · cases read
  · rintro ⟨user, side, amount, takerFee, rfl, userId, found, sideRead, amountRead, takerRead,
      short⟩
    simp only [readMarketArgs, Except.bind_eq_ok, jsonInteger_eq_ok, Prod.exists, getMarket_eq_ok,
      jsonSource_eq_ok]
    refine ⟨user, rfl, a.name, a.market, ⟨rfl, found⟩, a.side, sideRead, a.amount, amountRead,
      a.takerFee, takerRead, a.source, ⟨rfl, short⟩, ?_⟩
    rw [← userId]
    rfl

omit [Libmpdec] in
/-- The parameter lists read as a cancel. -/
theorem readCancelArgs_eq_ok {a : CancelArgs} : readCancelArgs markets params = .ok a ↔
    ∃ user orderId, params = [.integer user, .string a.name, .integer orderId] ∧
      a.userId = toUint32 user ∧ dictFind markets a.name = some a.market ∧
      a.orderId = toUint64 orderId := by
  constructor
  · intro read
    unfold readCancelArgs at read
    split at read
    · simp only [Except.bind_eq_ok, jsonInteger_eq_ok, Prod.exists, getMarket_eq_ok] at read
      obtain ⟨user, rfl, name, m, ⟨rfl, found⟩, orderId, rfl, result⟩ := read
      obtain rfl := Except.ok.inj result
      exact ⟨_, _, rfl, rfl, found, rfl⟩
    · cases read
  · rintro ⟨user, orderId, rfl, userId, found, order⟩
    simp only [readCancelArgs, Except.bind_eq_ok, jsonInteger_eq_ok, Prod.exists, getMarket_eq_ok]
    refine ⟨user, rfl, a.name, a.market, ⟨rfl, found⟩, orderId, rfl, ?_⟩
    rw [← userId, ← order]
    rfl

/-- The arguments read as a balance update. -/
theorem readUpdateArgs_eq_ok {prec : ℤ} {user asset business businessId change detail : Json}
    {a : UpdateArgs} :
    readUpdateArgs prec user asset business businessId change detail = .ok a ↔
      ∃ userId id, user = .integer userId ∧ a.userId = toUint32 userId ∧ asset = .string a.asset ∧
        business = .string a.business ∧ businessId = .integer id ∧ a.businessId = toUint64 id ∧
        jsonDecimal prec change = .ok a.change ∧ detail = .object a.detail := by
  simp only [readUpdateArgs, Except.bind_eq_ok, jsonInteger_eq_ok, jsonString_eq_ok,
    jsonObject_eq_ok]
  constructor
  · rintro ⟨userId, rfl, name, rfl, business, rfl, id, rfl, change, read, fields, rfl, result⟩
    obtain rfl := Except.ok.inj result
    exact ⟨_, _, rfl, rfl, rfl, rfl, rfl, rfl, read, rfl⟩
  · rintro ⟨userId, id, rfl, user, rfl, rfl, rfl, business, read, rfl⟩
    refine ⟨userId, rfl, a.asset, rfl, a.business, rfl, id, rfl, a.change, read, a.detail, rfl, ?_⟩
    rw [← user, ← business]
    rfl

/-- A laxer bound on the source accepts at least as much. -/
theorem readLimitArgs_mono (laxer : ∀ source, tooLong source = false → tooLong' source = false)
    {a : LimitArgs} (read : readLimitArgs tooLong markets params = .ok a) :
    readLimitArgs tooLong' markets params = .ok a := by
  obtain ⟨user, side, amount, price, takerFee, makerFee, eq, userId, found, sideRead, amountRead,
    priceRead, takerRead, makerRead, short⟩ := readLimitArgs_eq_ok.mp read
  exact readLimitArgs_eq_ok.mpr ⟨user, side, amount, price, takerFee, makerFee, eq, userId, found,
    sideRead, amountRead, priceRead, takerRead, makerRead, laxer _ short⟩

theorem readMarketArgs_mono (laxer : ∀ source, tooLong source = false → tooLong' source = false)
    {a : MarketArgs} (read : readMarketArgs tooLong markets params = .ok a) :
    readMarketArgs tooLong' markets params = .ok a := by
  obtain ⟨user, side, amount, takerFee, eq, userId, found, sideRead, amountRead, takerRead,
    short⟩ := readMarketArgs_eq_ok.mp read
  exact readMarketArgs_eq_ok.mpr ⟨user, side, amount, takerFee, eq, userId, found, sideRead,
    amountRead, takerRead, laxer _ short⟩

end ViabtcServer.MatchEngine
