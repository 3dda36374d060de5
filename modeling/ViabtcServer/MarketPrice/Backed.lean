import ViabtcServer.MarketPrice.Load

/-!
# What Redis holds of a market

A market is backed by Redis while every k-line that is not marked is stored with
its value, the stored deals follow those that wait, and the last price is stored
once no deal waits. Deals keep a market backed, and so does a flush none of whose
writes is given up for lost, at every command at which it may end.
-/

namespace ViabtcServer.MarketPrice

open Decimal Container MatchEngine

/-! ## Alike k-lines -/

/-- The values of two k-lines are alike. -/
structure KlineInfo.Alike (a b : KlineInfo) : Prop where
  open_ : a.open_.Alike b.open_
  close : a.close.Alike b.close
  high : a.high.Alike b.high
  low : a.low.Alike b.low
  volume : a.volume.Alike b.volume
  deal : a.deal.Alike b.deal

/-- 34 digits write each value of the k-line. -/
structure KlineInfo.Short (a : KlineInfo) : Prop where
  open_ : a.open_.Short
  close : a.close.Short
  high : a.high.Short
  low : a.low.Short
  volume : a.volume.Short
  deal : a.deal.Short

theorem KlineInfo.Alike.refl (a : KlineInfo) : a.Alike a :=
  ⟨.refl _, .refl _, .refl _, .refl _, .refl _, .refl _⟩

theorem KlineInfo.Alike.trans {a b c : KlineInfo} (one : a.Alike b) (two : b.Alike c) :
    a.Alike c :=
  ⟨one.open_.trans two.open_, one.close.trans two.close, one.high.trans two.high,
    one.low.trans two.low, one.volume.trans two.volume, one.deal.trans two.deal⟩

/-- What libmpdec prints it reads again. -/
class PrintedText [Libmpdec] [DecimalText] : Prop where
  /-- All digits are printed. -/
  sci : ∀ {a : Mpd}, a.Short → ∃ read, decimal (mpdToSci a) = some read ∧ read.Alike a
  /-- The zeros after a point do not count. -/
  stripped : ∀ {a : Mpd}, a.Short → ∃ read, decimal (mpdText a) = some read ∧ read.Alike a

/-- A stored k-line is read as it was. -/
theorem klineFromStr_toStr [Libmpdec] [DecimalText] [PrintedText] {a : KlineInfo}
    (short : a.Short) : ∃ read, klineFromStr (klineToStr a) = some read ∧ read.Alike a := by
  rcases PrintedText.stripped short.open_ with ⟨open_, readOpen, alikeOpen⟩
  rcases PrintedText.stripped short.close with ⟨close, readClose, alikeClose⟩
  rcases PrintedText.stripped short.high with ⟨high, readHigh, alikeHigh⟩
  rcases PrintedText.stripped short.low with ⟨low, readLow, alikeLow⟩
  rcases PrintedText.stripped short.volume with ⟨volume, readVolume, alikeVolume⟩
  rcases PrintedText.stripped short.deal with ⟨deal, readDeal, alikeDeal⟩
  refine ⟨⟨open_, close, high, low, volume, deal⟩, ?_,
    ⟨alikeOpen, alikeClose, alikeHigh, alikeLow, alikeVolume, alikeDeal⟩⟩
  simp only [klineToStr, klineFromStr, readOpen, readClose, readHigh, readLow, readVolume,
    readDeal]
  rfl

section Update

variable [Libmpdec] [SpecialValues] {a b : KlineInfo} {price amount : Mpd}

/-- A deal keeps k-lines alike. -/
theorem KlineInfo.Alike.update (alike : a.Alike b) (price amount : Mpd) :
    (klineInfoUpdate a price amount).Alike (klineInfoUpdate b price amount) := by
  constructor
  · exact alike.open_
  · exact .refl price
  · simp only [klineInfoUpdate, (Mpd.Alike.refl price).cmp alike.high]
    split
    · exact .refl price
    · exact alike.high
  · simp only [klineInfoUpdate, (Mpd.Alike.refl price).cmp alike.low]
    split
    · exact .refl price
    · exact alike.low
  · exact alike.volume.add (.refl amount)
  · exact alike.deal.add (.refl (mpdMul price amount))

theorem KlineInfo.Short.update (short : a.Short) (price_ : price.Short) (amount : Mpd) :
    (klineInfoUpdate a price amount).Short := by
  constructor
  · exact short.open_
  · exact price_
  · simp only [klineInfoUpdate]
    split
    · exact price_
    · exact short.high
  · simp only [klineInfoUpdate]
    split
    · exact price_
    · exact short.low
  · exact short_add _ _
  · exact short_add _ _

omit [Libmpdec] [SpecialValues] in
theorem klineInfoNew_short (price_ : price.Short) : (klineInfoNew price).Short :=
  ⟨price_, price_, price_, price_, Mpd.short_zero, Mpd.short_zero⟩

end Update

section Read

variable [Libmpdec]

theorem klineFromStr_short {text : List String} {a : KlineInfo}
    (read : klineFromStr text = some a) : a.Short := by
  unfold klineFromStr at read
  split at read
  · rename_i rest
    simp only [Option.bind_eq_bind, Option.bind_eq_some_iff] at read
    obtain ⟨open_, readOpen, close, readClose, high, readHigh, low, readLow, volume, readVolume,
      last⟩ := read
    split at last
    · obtain rfl := Option.some.inj last
      exact ⟨short_setString readOpen, short_setString readClose, short_setString readHigh,
        short_setString readLow, short_setString readVolume, Mpd.short_zero⟩
    · obtain ⟨deal, readDeal, same⟩ := Option.bind_eq_some_iff.mp last
      obtain rfl := Option.some.inj same
      exact ⟨short_setString readOpen, short_setString readClose, short_setString readHigh,
        short_setString readLow, short_setString readVolume, short_setString readDeal⟩
  · cases read

/-- A price that was read has 34 digits at most. -/
theorem readDeal_short {text : Json} {deal : Deal} (valid : readDeal text = some deal) :
    deal.price.Short := by
  unfold readDeal at valid
  split at valid
  · split at valid
    · cases valid
    split at valid
    · cases valid
    simp only [Option.bind_eq_bind, Option.bind_eq_some_iff] at valid
    obtain ⟨market, _, price, readPrice, amount, _, side, _, rest⟩ := valid
    split at rest
    · cases rest
    obtain rfl := Option.some.inj rest
    obtain ⟨text, _, read⟩ := readPrice
    exact short_setString read
  · cases valid

end Read

/-! ## Markets that agree -/

/-- The k-lines that are kept, the last price and the recent deals are the same. -/
structure MarketInfo.Agrees (kept : KlineType → ℤ → Prop) (info ideal : MarketInfo) : Prop where
  klines : ∀ {type start}, kept type start → Option.Rel KlineInfo.Alike
    (dictFind (info.klines type) start) (dictFind (ideal.klines type) start)
  last : info.last.Alike ideal.last
  dealsJson : info.dealsJson = ideal.dealsJson

/-- What Redis holds of one market. -/
structure Stored where
  klines : KlineType → Dict ℤ (List String)
  last : Option String
  deals : List DealJson

def Redis.of (r : Redis) (name : String) : Stored where
  klines := r.klines name
  last := r.last name
  deals := r.deals name

theorem optionRel_refl (a : Option KlineInfo) : Option.Rel KlineInfo.Alike a a := by
  cases a with
  | none => exact .none
  | some a => exact .some (.refl a)

theorem optionRel_trans {a b c : Option KlineInfo} (one : Option.Rel KlineInfo.Alike a b)
    (two : Option.Rel KlineInfo.Alike b c) : Option.Rel KlineInfo.Alike a c := by
  cases one with
  | none => exact two
  | some one =>
      cases two with
      | some two => exact .some (one.trans two)

/-- The head of a list that is cut is the head of the list. -/
theorem addDeal_take (deals : List DealJson) (deal : DealJson) :
    addDeal (deals.take marketDealsMax) deal = (deal :: deals).take marketDealsMax := by
  have positive : marketDealsMax = marketDealsMax - 1 + 1 := rfl
  unfold addDeal
  simp only [List.length_cons, List.length_take]
  split
  · rename_i long
    rw [List.dropLast_eq_take, List.length_cons, List.length_take, positive, List.take_succ_cons,
      Nat.add_sub_cancel]
    have full : min marketDealsMax deals.length = marketDealsMax := by omega
    rw [← positive, full, positive, List.take_succ_cons, Nat.add_sub_cancel, List.take_take]
    congr 2
  · rename_i room
    have short : deals.length ≤ marketDealsMax - 1 := by omega
    rw [List.take_of_length_le (by omega), positive, List.take_succ_cons,
      List.take_of_length_le short]

section Count

variable [Libmpdec] {kept : KlineType → ℤ → Prop} {info ideal : MarketInfo} {stored : Stored}
  {klines klines' : Dict ℤ KlineInfo} {start t : ℤ} {deal : Deal}

/-- What is stored of a k-line is read as the k-line. -/
def Fits (kline : Option KlineInfo) (text : Option (List String)) : Prop :=
  Option.Rel KlineInfo.Alike (text.bind klineFromStr) kline

/-- What is stored of the last price is read as the last price. -/
def LastFits (last : Mpd) (text : Option String) : Prop :=
  ∃ read, loadMarketLast text mpdZero = some read ∧ read.Alike last

/-- The market is backed by what is stored. -/
structure Backed (kept : KlineType → ℤ → Prop) (info : MarketInfo) (stored : Stored) : Prop where
  klines : ∀ {type start}, kept type start →
    (∃ padding, dictFind info.update ⟨type, padding, start⟩ = some ()) ∨
      Fits (dictFind (info.klines type) start) (dictFind (stored.klines type) start)
  present : ∀ {key}, dictFind info.update key = some () →
    (dictFind (info.klines key.klineType) key.timestamp).isSome = true
  last : info.deals = [] → LastFits info.last stored.last
  deals : (info.deals.reverse ++ stored.deals).take marketDealsMax = info.dealsJson
  shortKline : ∀ {type start kline}, dictFind (info.klines type) start = some kline → kline.Short
  shortLast : info.last.Short

/-- Nothing waits to be written. -/
def MarketInfo.Idle (info : MarketInfo) : Prop :=
  (∀ key, dictFind info.update key = none) ∧ info.deals = []

theorem updateKline_find : dictFind (updateKline klines start deal) t =
    if t = start then
      some (klineInfoUpdate ((dictFind klines start).getD (klineInfoNew deal.price))
        deal.price deal.amount)
    else dictFind klines t := by
  by_cases own : t = start
  · rw [if_pos own, own]
    exact dictFind_replace
  · rw [if_neg own]
    exact updateKline_ne own

variable [DecimalText] [LocalTime]

theorem MarketInfo.Agrees.count [SpecialValues] (agrees : info.Agrees kept ideal)
    (now now' : Time) (padding padding' : KlineType → ℕ) (deal : Deal) :
    (info.count now padding deal).Agrees kept (ideal.count now' padding' deal) := by
  constructor
  · intro type start kept_
    simp only [MarketInfo.count, updateKline_find]
    split
    · rename_i own
      subst own
      refine .some (KlineInfo.Alike.update ?_ _ _)
      have before := agrees.klines kept_
      generalize dictFind (info.klines type) _ = old at before ⊢
      generalize dictFind (ideal.klines type) _ = old' at before ⊢
      cases before with
      | none => exact .refl _
      | some alike => exact alike
    · exact agrees.klines kept_
  · exact .refl deal.price
  · simp only [MarketInfo.count, agrees.dealsJson]

/-- A deal is marked, and waits. -/
theorem Backed.count [SpecialValues] (backed : Backed kept info stored) (now : Time)
    (padding : KlineType → ℕ) (short : deal.price.Short) :
    Backed kept (info.count now padding deal) stored := by
  constructor
  · intro type start kept_
    by_cases own : start = klineStart type (truncate deal.timestamp)
    · left
      refine ⟨padding type, ?_⟩
      rw [MarketInfo.count_update]
      exact Or.inl ⟨rfl, own⟩
    · rcases backed.klines kept_ with ⟨pad, marked⟩ | fits
      · left
        refine ⟨pad, ?_⟩
        rw [MarketInfo.count_update]
        exact Or.inr marked
      · right
        simp only [MarketInfo.count]
        rw [updateKline_find, if_neg own]
        exact fits
  · intro key marked
    simp only [MarketInfo.count]
    rw [updateKline_find]
    split
    · rfl
    · rename_i differ
      rw [MarketInfo.count_update] at marked
      rcases marked with ⟨_, own⟩ | before
      · exact absurd own differ
      · exact backed.present before
  · intro empty
    exact absurd empty (by simp [MarketInfo.count])
  · simp only [MarketInfo.count]
    rw [List.reverse_append, List.append_assoc, List.reverse_singleton, List.singleton_append,
      ← backed.deals, addDeal_take]
  · intro type start kline found
    simp only [MarketInfo.count] at found
    rw [updateKline_find] at found
    split at found
    · obtain rfl := Option.some.inj found
      refine KlineInfo.Short.update ?_ short _
      cases old : dictFind (info.klines type) (klineStart type (truncate deal.timestamp)) with
      | none => exact klineInfoNew_short short
      | some kline => exact backed.shortKline old
    · exact backed.shortKline found
  · exact short

end Count

end ViabtcServer.MarketPrice
