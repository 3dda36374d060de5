import ViabtcServer.Chart.Candle
import ViabtcServer.MarketPrice.Query
import Mathlib.Data.List.Sort

/-!
# The candles of the k-lines

A k-line that counts some deals in order shows their candle as long as no sum is
rounded. The four levels count the same deals, so that a k-line of one level is what
merging those of the level below gives.
-/

namespace ViabtcServer.MarketPrice

open Decimal Container MatchEngine Chart

/-! ## What a k-line shows -/

/-- The price and amount of a deal. -/
def Deal.trade (deal : Deal) : Trade ℚ :=
  ⟨deal.price.value, deal.amount.value⟩

def KlineInfo.candle (info : KlineInfo) : Candle ℚ :=
  ⟨info.open_.value, info.close.value, info.high.value, info.low.value, info.volume.value,
    info.deal.value⟩

structure KlineInfo.IsFinite (info : KlineInfo) : Prop where
  open_ : info.open_.isFinite
  close : info.close.isFinite
  high : info.high.isFinite
  low : info.low.isFinite
  volume : info.volume.isFinite
  deal : info.deal.isFinite

/-- The k-line is the candle of the deals. -/
structure KlineInfo.Counts (info : KlineInfo) (deals : List Deal) : Prop where
  finite : info.IsFinite
  of : info.candle.Of (deals.map Deal.trade)

/-- Decimals are numbers and 34 digits are enough for the sums of any of them. -/
structure SumsFit (deals : List Deal) : Prop where
  finite : ∀ d ∈ deals, d.price.isFinite ∧ d.amount.isFinite
  volume : ∀ part : List Deal, part.Sublist deals →
    SigDigits mpdCtx (part.map fun d => d.amount.value).sum
  deal : ∀ part : List Deal, part.Sublist deals →
    SigDigits mpdCtx (part.map fun d => d.price.value * d.amount.value).sum

theorem SumsFit.sublist {deals part : List Deal} (fit : SumsFit deals)
    (sub : part.Sublist deals) : SumsFit part where
  finite d mem := fit.finite d (sub.subset mem)
  volume _ sub' := fit.volume _ (sub'.trans sub)
  deal _ sub' := fit.deal _ (sub'.trans sub)

theorem klineInfoNew_candle (price : Mpd) :
    (klineInfoNew price).candle = Candle.flat price.value := by
  simp [klineInfoNew, KlineInfo.candle, Candle.flat]

theorem klineInfoNew_isFinite {price : Mpd} (finite : price.isFinite) :
    (klineInfoNew price).IsFinite :=
  ⟨finite, finite, finite, finite, rfl, rfl⟩

section Merge

variable [Libmpdec] {info item : KlineInfo} {price amount a b : Mpd}

theorem higher_value (fa : a.isFinite) (fb : b.isFinite) :
    (if mpdCmp a b > 0 then a else b).value = max b.value a.value := by
  by_cases above : b.value < a.value
  · rw [if_pos ((mpdCmp_gt_zero fa fb).mpr above), max_eq_right above.le]
  · rw [if_neg (fun gt => above ((mpdCmp_gt_zero fa fb).mp gt)), max_eq_left (not_lt.mp above)]

theorem lower_value (fa : a.isFinite) (fb : b.isFinite) :
    (if mpdCmp a b < 0 then a else b).value = min b.value a.value := by
  by_cases below : a.value < b.value
  · rw [if_pos ((mpdCmp_lt_zero fa fb).mpr below), min_eq_right below.le]
  · rw [if_neg (fun lt => below ((mpdCmp_lt_zero fa fb).mp lt)), min_eq_left (not_lt.mp below)]

omit [Libmpdec] in
theorem ite_isFinite {p : Prop} [Decidable p] (fa : a.isFinite) (fb : b.isFinite) :
    (if p then a else b).isFinite = true := by
  split
  · exact fa
  · exact fb

/-- An update adds one trade to the candle. -/
theorem klineInfoUpdate_candle (finite : info.IsFinite) (fp : price.isFinite)
    (fa : amount.isFinite) (volume : SigDigits mpdCtx (info.volume.value + amount.value))
    (product : SigDigits mpdCtx (price.value * amount.value))
    (deal : SigDigits mpdCtx (info.deal.value + price.value * amount.value)) :
    (klineInfoUpdate info price amount).IsFinite ∧
      (klineInfoUpdate info price amount).candle = info.candle.merge
        ⟨price.value, price.value, price.value, price.value, amount.value,
          price.value * amount.value⟩ := by
  have fm := Libmpdec.mul_finite fp fa
  have exact_ := (mpdMul_exact_iff fp fa).mpr product
  constructor
  · exact ⟨finite.open_, fp, ite_isFinite fp finite.high, ite_isFinite fp finite.low,
      Libmpdec.add_finite finite.volume fa, Libmpdec.add_finite finite.deal fm⟩
  · rw [← exact_] at deal
    have total := mpdAdd_exact finite.deal fm deal
    rw [exact_] at total
    simp only [klineInfoUpdate, KlineInfo.candle, Candle.merge, higher_value fp finite.high,
      lower_value fp finite.low, mpdAdd_exact finite.volume fa volume, total]

/-- A merge merges the candles. -/
theorem klineInfoMerge_candle (finite : info.IsFinite) (finite' : item.IsFinite)
    (volume : SigDigits mpdCtx (info.volume.value + item.volume.value))
    (deal : SigDigits mpdCtx (info.deal.value + item.deal.value)) :
    (klineInfoMerge info item).IsFinite ∧
      (klineInfoMerge info item).candle = info.candle.merge item.candle := by
  constructor
  · exact ⟨finite.open_, finite'.close, ite_isFinite finite'.high finite.high,
      ite_isFinite finite'.low finite.low, Libmpdec.add_finite finite.volume finite'.volume,
      Libmpdec.add_finite finite.deal finite'.deal⟩
  · simp only [klineInfoMerge, KlineInfo.candle, Candle.merge,
      higher_value finite'.high finite.high, lower_value finite'.low finite.low,
      mpdAdd_exact finite.volume finite'.volume volume, mpdAdd_exact finite.deal finite'.deal deal]

/-! ## Counting -/

variable {deals later : List Deal} {deal : Deal}

omit [Libmpdec] in
theorem KlineInfo.Counts.volume_eq (counts : info.Counts deals) :
    info.volume.value = (deals.map fun d => d.amount.value).sum := by
  have sum := counts.of.volume
  rw [List.map_map] at sum
  exact sum

omit [Libmpdec] in
theorem KlineInfo.Counts.deal_eq (counts : info.Counts deals) :
    info.deal.value = (deals.map fun d => d.price.value * d.amount.value).sum := by
  have sum := counts.of.deal
  rw [List.map_map] at sum
  exact sum

/-- One more deal. -/
theorem KlineInfo.Counts.update (counts : info.Counts deals) (fit : SumsFit (deals ++ [deal])) :
    (klineInfoUpdate info deal.price deal.amount).Counts (deals ++ [deal]) := by
  rcases fit.finite deal (List.mem_append_right _ (List.mem_singleton_self _)) with ⟨fp, fa⟩
  have volume := fit.volume _ (List.Sublist.refl _)
  have product := fit.deal [deal] (List.sublist_append_right _ _)
  have total := fit.deal _ (List.Sublist.refl _)
  rw [List.map_append, List.sum_append, List.map_singleton, List.sum_singleton] at volume total
  rw [List.map_singleton, List.sum_singleton] at product
  rw [← counts.volume_eq] at volume
  rw [← counts.deal_eq] at total
  rcases klineInfoUpdate_candle counts.finite fp fa volume product total with ⟨finite, candle⟩
  refine ⟨finite, ?_⟩
  rw [candle, List.map_append]
  exact counts.of.append (Candle.of_single deal.trade)

/-- The first deal. -/
theorem klineInfoUpdate_counts (fit : SumsFit [deal]) :
    (klineInfoUpdate (klineInfoNew deal.price) deal.price deal.amount).Counts [deal] := by
  rcases fit.finite deal (List.mem_singleton_self _) with ⟨fp, fa⟩
  have volume := fit.volume _ (List.Sublist.refl _)
  have product := fit.deal _ (List.Sublist.refl _)
  rw [List.map_singleton, List.sum_singleton] at volume product
  rcases klineInfoUpdate_candle (klineInfoNew_isFinite fp) fp fa (by simpa [klineInfoNew])
    product (by simpa [klineInfoNew]) with ⟨finite, candle⟩
  refine ⟨finite, ?_⟩
  rw [candle, klineInfoNew_candle]
  have single := Candle.of_single deal.trade
  have merged := single.flat_merge
  rw [show (Candle.flat deal.price.value).merge ⟨deal.price.value, deal.price.value,
    deal.price.value, deal.price.value, deal.amount.value, deal.price.value * deal.amount.value⟩ =
    _ from merged]
  exact single

/-- A k-line of later deals is merged. -/
theorem KlineInfo.Counts.merge (counts : info.Counts deals) (counts' : item.Counts later)
    (fit : SumsFit (deals ++ later)) : (klineInfoMerge info item).Counts (deals ++ later) := by
  have volume := fit.volume _ (List.Sublist.refl _)
  have total := fit.deal _ (List.Sublist.refl _)
  rw [List.map_append, List.sum_append] at volume total
  rw [← counts.volume_eq, ← counts'.volume_eq] at volume
  rw [← counts.deal_eq, ← counts'.deal_eq] at total
  rcases klineInfoMerge_candle counts.finite counts'.finite volume total with ⟨finite, candle⟩
  refine ⟨finite, ?_⟩
  rw [candle, List.map_append]
  exact counts.of.append counts'.of

/-- Merging from its own open changes nothing. -/
theorem KlineInfo.Counts.fresh (counts : item.Counts deals) (fit : SumsFit deals) :
    (klineInfoMerge (klineInfoNew item.open_) item).Counts deals := by
  have volume := fit.volume _ (List.Sublist.refl _)
  have total := fit.deal _ (List.Sublist.refl _)
  rw [← counts.volume_eq] at volume
  rw [← counts.deal_eq] at total
  rcases klineInfoMerge_candle (klineInfoNew_isFinite counts.finite.open_) counts.finite
    (by simpa [klineInfoNew]) (by simpa [klineInfoNew]) with ⟨finite, candle⟩
  refine ⟨finite, ?_⟩
  rw [candle, klineInfoNew_candle]
  exact counts.of.flat_merge.symm ▸ counts.of

/-- `kline_info_merge` of several k-lines, started from the first one's open. -/
def mergeAll (items : List KlineInfo) : Option KlineInfo :=
  items.foldl mergeItem none

theorem KlineInfo.Counts.foldl {items : List KlineInfo} {parts : List (List Deal)}
    (counts : info.Counts deals) (all : List.Forall₂ KlineInfo.Counts items parts)
    (fit : SumsFit (deals ++ parts.flatten)) :
    ∃ kinfo, items.foldl mergeItem (some info) = some kinfo ∧
      kinfo.Counts (deals ++ parts.flatten) := by
  induction all generalizing info deals with
  | nil =>
      rw [List.flatten_nil, List.append_nil]
      exact ⟨info, rfl, counts⟩
  | @cons item part items parts first _ ih =>
      rw [List.flatten_cons, ← List.append_assoc] at fit ⊢
      have merged := counts.merge first (fit.sublist (List.sublist_append_left _ _))
      exact ih merged fit

/-- The k-lines of parts merge to one of the whole. -/
theorem mergeAll_counts {items : List KlineInfo} {parts : List (List Deal)}
    (all : List.Forall₂ KlineInfo.Counts items parts) (fit : SumsFit parts.flatten)
    (some_ : items ≠ []) : ∃ kinfo, mergeAll items = some kinfo ∧ kinfo.Counts parts.flatten := by
  cases all with
  | nil => exact absurd rfl some_
  | @cons item part items parts first others =>
      rw [List.flatten_cons] at fit ⊢
      have start := first.fresh (fit.sublist (List.sublist_append_left _ _))
      exact start.foldl others fit

/-- Nothing is merged precisely when there are no deals. -/
theorem mergeAll_cases {items : List KlineInfo} {parts : List (List Deal)}
    (all : List.Forall₂ KlineInfo.Counts items parts) (fit : SumsFit parts.flatten) :
    (parts.flatten = [] → mergeAll items = none) ∧
      (parts.flatten ≠ [] → ∃ kinfo, mergeAll items = some kinfo ∧
        kinfo.Counts parts.flatten) := by
  cases items with
  | nil =>
      rw [List.forall₂_nil_left_iff] at all
      subst all
      exact ⟨fun _ => rfl, fun some_ => absurd rfl some_⟩
  | cons item rest =>
      rcases mergeAll_counts all fit (List.cons_ne_nil _ _) with ⟨kinfo, merged, counts⟩
      refine ⟨fun none_ => ?_, fun _ => ⟨kinfo, merged, counts⟩⟩
      rw [none_] at counts
      exact absurd rfl counts.of.ne_nil

end Merge

end ViabtcServer.MarketPrice
