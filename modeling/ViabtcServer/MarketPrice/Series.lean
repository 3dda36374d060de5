import ViabtcServer.MarketPrice.Window

/-!
# Series of candles

The candles of an interval are merged from what is stored in their slots. A slot with
nothing repeats the last price known, and there is no candle before the first one.
-/

namespace ViabtcServer.MarketPrice

open Decimal Container MatchEngine Chart

/-! ## A merged candle -/

/-- A k-line of numbers whose open lies between its extremes. -/
structure KlineInfo.Sane (info : KlineInfo) : Prop where
  finite : info.IsFinite
  low : info.low.value ≤ info.open_.value
  high : info.open_.value ≤ info.high.value

section Merge

variable [Libmpdec] {info item : KlineInfo} {items : List KlineInfo}

/-- The k-line of several in order: open of the first and close of the last, the highest
high and the lowest low, and the sums. -/
structure KlineInfo.Merges (info : KlineInfo) (items : List KlineInfo) : Prop where
  open_ : items.head?.map KlineInfo.open_ = some info.open_
  close : items.getLast?.map KlineInfo.close = some info.close
  finite : info.high.isFinite ∧ info.low.isFinite
  high : IsGreatest {v | v ∈ items.map fun i => i.high.value} info.high.value
  low : IsLeast {v | v ∈ items.map fun i => i.low.value} info.low.value
  volume : info.volume = (items.map KlineInfo.volume).foldl mpdAdd mpdZero
  deal : info.deal = (items.map KlineInfo.deal).foldl mpdAdd mpdZero

/-- A sum is exact as long as 34 digits are enough on the way. -/
theorem foldl_mpdAdd_value {terms : List Mpd} (finite : ∀ a ∈ terms, a.isFinite)
    (digits : ∀ n, SigDigits mpdCtx (((terms.take n).map Mpd.value).sum)) :
    (terms.foldl mpdAdd mpdZero).isFinite ∧
      (terms.foldl mpdAdd mpdZero).value = (terms.map Mpd.value).sum := by
  induction terms using List.reverseRecOn with
  | nil => exact ⟨rfl, mpdZero_value⟩
  | append_singleton terms a ih =>
      have front (n : ℕ) : SigDigits mpdCtx (((terms.take n).map Mpd.value).sum) := by
        have part := digits (min n terms.length)
        rw [List.take_append_of_le_length (min_le_right _ _)] at part
        rw [← List.take_eq_take_min]  at part
        exact part
      rcases ih (fun b mem => finite b (List.mem_append_left _ mem)) front with ⟨fin, value⟩
      have fa := finite a (List.mem_append_right _ (List.mem_singleton_self _))
      have whole := digits (terms ++ [a]).length
      rw [List.take_length, List.map_append, List.sum_append, List.map_singleton,
        List.sum_singleton, ← value] at whole
      rw [List.foldl_append, List.foldl_cons, List.foldl_nil]
      refine ⟨Libmpdec.add_finite fin fa, ?_⟩
      rw [mpdAdd_exact fin fa whole, value, List.map_append, List.sum_append, List.map_singleton,
        List.sum_singleton]

theorem KlineInfo.Sane.first (sane : item.Sane) :
    (klineInfoMerge (klineInfoNew item.open_) item).Merges [item] where
  open_ := rfl
  close := rfl
  finite := ⟨ite_isFinite sane.finite.high sane.finite.open_,
    ite_isFinite sane.finite.low sane.finite.open_⟩
  high := by
    have value : (klineInfoMerge (klineInfoNew item.open_) item).high.value = item.high.value :=
      (higher_value sane.finite.high sane.finite.open_).trans (max_eq_right sane.high)
    rw [value]
    exact ⟨List.mem_singleton_self _, fun v mem => (List.mem_singleton.mp mem).le⟩
  low := by
    have value : (klineInfoMerge (klineInfoNew item.open_) item).low.value = item.low.value :=
      (lower_value sane.finite.low sane.finite.open_).trans (min_eq_right sane.low)
    rw [value]
    exact ⟨List.mem_singleton_self _, fun v mem => (List.mem_singleton.mp mem).ge⟩
  volume := rfl
  deal := rfl

/-- One more k-line. -/
theorem KlineInfo.Merges.next (merges : info.Merges items) (sane : item.Sane) :
    (klineInfoMerge info item).Merges (items ++ [item]) where
  open_ := by
    have some_ : items ≠ [] := by
      rintro rfl
      cases merges.open_
    rw [List.head?_append_of_ne_nil _ some_]
    exact merges.open_
  close := by
    rw [List.getLast?_concat]
    rfl
  finite := ⟨ite_isFinite sane.finite.high merges.finite.1,
    ite_isFinite sane.finite.low merges.finite.2⟩
  high := by
    have single : IsGreatest {v | v ∈ [item.high.value]} item.high.value :=
      ⟨List.mem_singleton_self _, fun v mem => (List.mem_singleton.mp mem).le⟩
    rw [List.map_append]
    exact (higher_value sane.finite.high merges.finite.1).symm ▸
      Candle.isGreatest_append merges.high single
  low := by
    have single : IsLeast {v | v ∈ [item.low.value]} item.low.value :=
      ⟨List.mem_singleton_self _, fun v mem => (List.mem_singleton.mp mem).ge⟩
    rw [List.map_append]
    exact (lower_value sane.finite.low merges.finite.2).symm ▸
      Candle.isLeast_append merges.low single
  volume := by
    rw [List.map_append, List.foldl_append, ← merges.volume]
    rfl
  deal := by
    rw [List.map_append, List.foldl_append, ← merges.deal]
    rfl

/-- What is merged of a slot with something in it. -/
theorem mergeAll_merges (some_ : items ≠ []) (sane : ∀ item ∈ items, item.Sane) :
    ∃ kinfo, mergeAll items = some kinfo ∧ kinfo.Merges items := by
  induction items using List.reverseRecOn with
  | nil => exact absurd rfl some_
  | append_singleton items item ih =>
      have last := sane item (List.mem_append_right _ (List.mem_singleton_self _))
      rw [mergeAll, List.foldl_append]
      by_cases first : items = []
      · subst first
        exact ⟨_, rfl, last.first⟩
      · rcases ih first fun i mem => sane i (List.mem_append_left _ mem) with
          ⟨kinfo, same, merges⟩
        rw [show items.foldl mergeItem none = some kinfo from same]
        exact ⟨_, rfl, merges.next last⟩

/-- The sums are exact as long as 34 digits are enough on the way. -/
theorem KlineInfo.Merges.exact (merges : info.Merges items) (sane : ∀ item ∈ items, item.Sane) :
    ((∀ n, SigDigits mpdCtx (((items.take n).map fun i => i.volume.value).sum)) →
      info.volume.value = (items.map fun i => i.volume.value).sum) ∧
    ((∀ n, SigDigits mpdCtx (((items.take n).map fun i => i.deal.value).sum)) →
      info.deal.value = (items.map fun i => i.deal.value).sum) := by
  constructor
  · intro digits
    rw [merges.volume]
    have sum := (@foldl_mpdAdd_value _ (items.map KlineInfo.volume)
      (fun a mem => by
        rcases List.mem_map.mp mem with ⟨item, here, rfl⟩
        exact (sane item here).finite.volume)
      (fun n => by
        rw [← List.map_take, List.map_map]
        exact digits n)).2
    rw [List.map_map] at sum
    exact sum
  · intro digits
    rw [merges.deal]
    have sum := (@foldl_mpdAdd_value _ (items.map KlineInfo.deal)
      (fun a mem => by
        rcases List.mem_map.mp mem with ⟨item, here, rfl⟩
        exact (sane item here).finite.deal)
      (fun n => by
        rw [← List.map_take, List.map_map]
        exact digits n)).2
    rw [List.map_map] at sum
    exact sum

end Merge

/-! ## The last price known -/

section Known

variable {klines : Dict ℤ KlineInfo} {known t step interval start bound : ℤ} {n : ℕ}

/-- The k-line at `u` is the last one stored before `t`, from `known` on. -/
structure Nearest (klines : Dict ℤ KlineInfo) (known t u : ℤ) (item : KlineInfo) : Prop where
  stored : dictFind klines u = some item
  inside : known ≤ u ∧ u < t
  last : ∀ v, u < v → v < t → dictFind klines v = none

/-- `klast` closes at the last price before `t`, if there is one. -/
def Known (klines : Dict ℤ KlineInfo) (known t : ℤ) : Option KlineInfo → Prop
  | none => ∀ u, known ≤ u → u < t → dictFind klines u = none
  | some klast => ∃ u item, Nearest klines known t u item ∧ klast.close = item.close

/-- What is stored in a slot. -/
def slotItems (klines : Dict ℤ KlineInfo) (step : ℤ) (n : ℕ) (start : ℤ) : List KlineInfo :=
  (ticks start step n).filterMap (dictFind klines)

/-- The slot has all that is stored from `t` up to the next slot. -/
theorem mem_ticks_slot (pos : 0 < step) (length : interval = n * step) {u : ℤ} (above : t ≤ u)
    (below : u < t + interval) (grid : step ∣ u - t) : u ∈ ticks t step n := by
  rcases grid with ⟨k, same⟩
  have nonneg : 0 ≤ k := by
    by_contra neg
    have := Int.mul_neg_of_pos_of_neg pos (not_le.mp neg)
    omega
  have less : k < n := by
    by_contra far
    have := Int.mul_le_mul_of_nonneg_right (not_lt.mp far) pos.le
    rw [Int.mul_comm] at same
    omega
  refine mem_ticks.mpr ⟨k.toNat, by omega, ?_⟩
  rw [Int.toNat_of_nonneg nonneg, Int.mul_comm]
  omega

theorem lt_of_mem_ticks (pos : 0 < step) (length : interval = n * step) {u : ℤ}
    (mem : u ∈ ticks t step n) : t ≤ u ∧ u < t + interval := by
  rcases mem_ticks.mp mem with ⟨i, less, rfl⟩
  have nonneg : 0 ≤ (i : ℤ) * step := Int.mul_nonneg (Int.natCast_nonneg i) pos.le
  have room : (i : ℤ) * step < n * step :=
    Int.mul_lt_mul_of_pos_right (by exact_mod_cast less) pos
  omega

/-- Nothing stored in the slot. -/
theorem Known.empty {klast : Option KlineInfo} (known_ : Known klines known t klast)
    (pos : 0 < step) (length : interval = n * step)
    (grid : ∀ u item, dictFind klines u = some item → step ∣ u - t)
    (empty : slotItems klines step n t = []) : Known klines known (t + interval) klast := by
  have none_ : ∀ u, t ≤ u → u < t + interval → dictFind klines u = none := by
    intro u above below
    cases found : dictFind klines u with
    | none => rfl
    | some item =>
        have here := mem_ticks_slot pos length above below (grid u item found)
        rw [← found]
        exact List.filterMap_eq_nil_iff.mp empty u here
  cases klast with
  | none =>
      intro u above below
      by_cases before : u < t
      · exact known_ u above before
      · exact none_ u (not_lt.mp before) below
  | some klast =>
      rcases known_ with ⟨u, item, near, close⟩
      have wide : 0 ≤ interval := by
        rw [length]
        exact Int.mul_nonneg (Int.natCast_nonneg n) pos.le
      refine ⟨u, item, ⟨near.stored, ⟨near.inside.1, ?_⟩, ?_⟩, close⟩
      · have := near.inside.2
        omega
      · intro v above below
        by_cases before : v < t
        · exact near.last v above before
        · exact none_ v (not_lt.mp before) below

/-- The last of what is stored at sorted times. -/
theorem exists_last {times : List ℤ} (sorted : times.Pairwise (· < ·)) {item : KlineInfo}
    (last : (times.filterMap (dictFind klines)).getLast? = some item) :
    ∃ u ∈ times, dictFind klines u = some item ∧
      ∀ v ∈ times, u < v → dictFind klines v = none := by
  induction times using List.reverseRecOn with
  | nil => cases last
  | append_singleton times t ih =>
      rcases List.pairwise_append.mp sorted with ⟨front, _, before⟩
      rw [List.filterMap_append] at last
      cases found : dictFind klines t with
      | some stored =>
          rw [List.filterMap_cons_some found, List.filterMap_nil, List.getLast?_concat] at last
          obtain rfl := Option.some.inj last
          refine ⟨t, List.mem_append_right _ (List.mem_singleton_self t), found, ?_⟩
          intro v mem above
          rcases List.mem_append.mp mem with early | same
          · have := before v early t (List.mem_singleton_self t)
            omega
          · rw [List.mem_singleton.mp same] at above
            omega
      | none =>
          rw [List.filterMap_cons_none found, List.filterMap_nil, List.append_nil] at last
          rcases ih front last with ⟨u, mem, stored, none_⟩
          refine ⟨u, List.mem_append_left _ mem, stored, ?_⟩
          intro v mem above
          rcases List.mem_append.mp mem with early | same
          · exact none_ v early above
          · rw [List.mem_singleton.mp same]
            exact found

/-- After a slot with something in it its close is known. -/
theorem Known.merged [Libmpdec] {kinfo : KlineInfo} (pos : 0 < step) (length : interval = n * step)
    (grid : ∀ u item, dictFind klines u = some item → step ∣ u - t) (from_ : known ≤ t)
    (merges : kinfo.Merges (slotItems klines step n t)) :
    Known klines known (t + interval) (some kinfo) := by
  rcases Option.map_eq_some_iff.mp merges.close with ⟨item, last, close⟩
  rcases exists_last (ticks_sorted pos) last with ⟨u, mem, stored, none_⟩
  rcases lt_of_mem_ticks pos length mem with ⟨above, below⟩
  refine ⟨u, item, ⟨stored, ⟨by omega, below⟩, ?_⟩, close.symm⟩
  intro v later before
  cases found : dictFind klines v with
  | none => rfl
  | some other =>
      have here := mem_ticks_slot pos length (by omega) before (grid v other found)
      rw [← found]
      exact none_ v here later

/-- `get_last_kline` finds what was stored last before `start`. -/
theorem getLastKline_known (pos : 0 < step)
    (grid : ∀ u item, dictFind klines u = some item → step ∣ u - start) :
    Known klines (min start bound) start (getLastKline klines (start - step) bound step) := by
  have visited : ∀ u, u ∈ ticks (start - step) (-step) ((start - step - bound) / step + 1).toNat ↔
      bound ≤ u ∧ u < start ∧ step ∣ u - start := by
    intro u
    rw [mem_ticks]
    constructor
    · rintro ⟨i, less, rfl⟩
      have room : (i : ℤ) ≤ (start - step - bound) / step := by omega
      have far := Int.mul_le_mul_of_nonneg_right room pos.le
      have most := Int.ediv_mul_le (start - step - bound) pos.ne'
      have nonneg : 0 ≤ (i : ℤ) * step := Int.mul_nonneg (Int.natCast_nonneg i) pos.le
      have flip : (i : ℤ) * -step = -(i * step) := Int.mul_neg _ _
      refine ⟨by omega, by omega, -(i + 1), ?_⟩
      linarith
    · rintro ⟨above, below, k, same⟩
      have neg : k < 0 := by
        by_contra nonneg
        have := Int.mul_nonneg pos.le (not_lt.mp nonneg)
        omega
      have room : -k - 1 ≤ (start - step - bound) / step := by
        apply Int.le_ediv_of_mul_le pos
        linarith
      refine ⟨(-k - 1).toNat, by omega, ?_⟩
      rw [Int.toNat_of_nonneg (by omega)]
      linarith
  unfold getLastKline
  cases found : (ticks (start - step) (-step) ((start - step - bound) / step + 1).toNat).findSome?
      (dictFind klines) with
  | none =>
      intro u above below
      cases stored : dictFind klines u with
      | none => rfl
      | some item =>
          have here := (visited u).mpr ⟨by omega, below, grid u item stored⟩
          rw [← stored]
          exact List.findSome?_eq_none_iff.mp found u here
  | some item =>
      rcases List.findSome?_eq_some_iff.mp found with ⟨front, u, back, split, stored, none_⟩
      have mem : u ∈ ticks (start - step) (-step) ((start - step - bound) / step + 1).toNat := by
        rw [split]
        exact List.mem_append_right _ List.mem_cons_self
      rcases (visited u).mp mem with ⟨above, below, _⟩
      refine ⟨u, item, ⟨stored, ⟨by omega, below⟩, ?_⟩, rfl⟩
      intro v later before
      cases other : dictFind klines v with
      | none => rfl
      | some item' =>
          have here := (visited v).mpr ⟨by omega, before, grid v item' other⟩
          have descending : (ticks (start - step) (-step)
              ((start - step - bound) / step + 1).toNat).Pairwise (· > ·) := by
            rw [ticks, List.pairwise_map]
            apply List.pairwise_lt_range.imp
            intro i j less
            have wide : (i : ℤ) * step < j * step :=
              Int.mul_lt_mul_of_pos_right (by exact_mod_cast less) pos
            rw [Int.mul_neg, Int.mul_neg]
            omega
          rw [split] at here descending
          rcases List.mem_append.mp here with early | late
          · rw [← other]
            exact none_ v early
          · rcases List.mem_cons.mp late with rfl | later'
            · omega
            · have := (List.pairwise_cons.mp (List.pairwise_append.mp descending).2.1).1 v later'
              omega

end Known

/-! ## Series -/

section Series

variable [Libmpdec] {klines : Dict ℤ KlineInfo} {known t step interval start stop bound : ℤ}
  {n : ℕ} {klast : Option KlineInfo}

/-- A candle is merged from what is stored in its slot, or flat at the close of what was
stored last, from `known` on. -/
structure CandleOf (klines : Dict ℤ KlineInfo) (known step : ℤ) (n : ℕ)
    (candle : ℤ × KlineInfo) : Prop where
  merged : slotItems klines step n candle.1 ≠ [] →
    candle.2.Merges (slotItems klines step n candle.1)
  flat : slotItems klines step n candle.1 = [] →
    ∃ u item, Nearest klines known candle.1 u item ∧ candle.2 = klineInfoNew item.close

/-- One candle for each start, but none before the first price known. -/
def CandlesFor (klines : Dict ℤ KlineInfo) (known step interval : ℤ) (n : ℕ) (starts : List ℤ)
    (candles : List (ℤ × KlineInfo)) : Prop :=
  (∃ k, candles.map Prod.fst = starts.drop k ∧
    ∀ s ∈ starts.take k, ∀ u, known ≤ u → u < s + interval → dictFind klines u = none) ∧
  ∀ candle ∈ candles, CandleOf klines known step n candle

omit [Libmpdec] in
theorem ticks_succ (m : ℕ) : ticks t interval (m + 1) = t :: ticks (t + interval) interval m := by
  unfold ticks
  rw [List.range_succ_eq_map, List.map_cons, List.map_map]
  congr 1
  · simp
  · apply List.map_congr_left
    intro i _
    simp only [Function.comp_apply]
    push_cast
    ring

/-- The loop, started with the last price known. -/
theorem klineSeries_candles (pos : 0 < step) (length : interval = n * step)
    (sane : ∀ u item, dictFind klines u = some item → item.Sane)
    (grid : ∀ u item, dictFind klines u = some item → step ∣ u - t) (from_ : known ≤ t)
    (known_ : Known klines known t klast) (m : ℕ) :
    CandlesFor klines known step interval n (ticks t interval m)
        (klineSeries (slotKline klines step n) klast (ticks t interval m)) ∧
      (klast ≠ none → (klineSeries (slotKline klines step n) klast (ticks t interval m)).map
        Prod.fst = ticks t interval m) := by
  induction m generalizing t klast with
  | zero =>
      have none_ {p : ℤ × KlineInfo → Prop} : ∀ candle ∈ ([] : List (ℤ × KlineInfo)), p candle :=
        fun _ mem => absurd mem List.not_mem_nil
      exact ⟨⟨⟨0, rfl, fun s mem => absurd mem List.not_mem_nil⟩, none_⟩, fun _ => rfl⟩
  | succ m ih =>
      rw [ticks_succ]
      have wide : 0 ≤ interval := by
        rw [length]
        exact Int.mul_nonneg (Int.natCast_nonneg n) pos.le
      have dvd : step ∣ interval := ⟨n, by rw [length, Int.mul_comm]⟩
      have grid' : ∀ u item, dictFind klines u = some item → step ∣ u - (t + interval) := by
        intro u item found
        have := Int.dvd_sub (grid u item found) dvd
        rwa [Int.sub_sub] at this
      have saneItems : ∀ item ∈ slotItems klines step n t, item.Sane := by
        intro item mem
        rcases List.mem_filterMap.mp mem with ⟨u, _, found⟩
        exact sane u item found
      by_cases empty : slotItems klines step n t = []
      · have nothing : slotKline klines step n t = none := by
          change mergeAll (slotItems klines step n t) = none
          rw [empty]
          rfl
        have later := known_.empty pos length grid empty
        cases klast with
        | none =>
            rcases ih grid' (by omega) later with ⟨⟨⟨k, starts, dark⟩, candles⟩, _⟩
            simp only [klineSeries, nothing]
            refine ⟨⟨⟨k + 1, starts, ?_⟩, candles⟩, fun some_ => absurd rfl some_⟩
            intro s mem
            rcases List.mem_cons.mp mem with rfl | mem
            · exact later
            · exact dark s mem
        | some klast =>
            have again : Known klines known (t + interval) (some (klineInfoNew klast.close)) :=
              later
            rcases ih grid' (by omega) again with ⟨⟨_, candles⟩, all⟩
            have starts := all (Option.some_ne_none _)
            simp only [klineSeries, nothing]
            refine ⟨⟨⟨0, ?_, fun s mem => absurd mem List.not_mem_nil⟩, ?_⟩, fun _ => ?_⟩
            · rw [List.map_cons, starts, List.drop_zero]
            · intro candle mem
              rcases List.mem_cons.mp mem with rfl | mem
              · refine ⟨fun some_ => absurd empty some_, fun _ => ?_⟩
                rcases known_ with ⟨u, item, near, close⟩
                exact ⟨u, item, near, by rw [close]⟩
              · exact candles candle mem
            · rw [List.map_cons, starts]
      · rcases mergeAll_merges empty saneItems with ⟨kinfo, same, merges⟩
        have something : slotKline klines step n t = some kinfo := same
        have later := Known.merged pos length grid from_ merges
        rcases ih grid' (by omega) later with ⟨⟨_, candles⟩, all⟩
        have starts := all (Option.some_ne_none _)
        simp only [klineSeries, something]
        refine ⟨⟨⟨0, ?_, fun s mem => absurd mem List.not_mem_nil⟩, ?_⟩, fun _ => ?_⟩
        · rw [List.map_cons, starts, List.drop_zero]
        · intro candle mem
          rcases List.mem_cons.mp mem with rfl | mem
          · exact ⟨fun _ => merges, fun none_ => absurd none_ empty⟩
          · exact candles candle mem
        · rw [List.map_cons, starts]

/-- What a `get_market_kline` function answers, for candles that begin at `start`. -/
structure IsSeries (klines : Dict ℤ KlineInfo) (known step interval start stop : ℤ)
    (answer : List (ℤ × KlineInfo)) : Prop where
  candles : CandlesFor klines known step interval (interval / step).toNat
    (ticksTo start stop interval) answer
  multiples : ∀ candle ∈ answer, interval ∣ candle.1 ∧ candle.1 ≤ stop
  /-- Up to `stop` everything stored is in a slot. -/
  covers : ∀ u, start ≤ u → u ≤ stop → ∃ s ∈ ticksTo start stop interval,
    s ≤ u ∧ u < s + interval
  /-- What is stored in a slot is merged there once and nowhere else. -/
  once : ∀ u item, dictFind klines u = some item → ∀ s ∈ ticksTo start stop interval,
    s ≤ u → u < s + interval → u ∈ ticks s step (interval / step).toNat ∧
      (ticks s step (interval / step).toNat).Nodup ∧
      ∀ s' ∈ ticksTo start stop interval, u ∈ ticks s' step (interval / step).toNat → s' = s
  /-- Sums are exact as long as 34 digits are enough. -/
  exact_ : ∀ candle ∈ answer,
    let items := slotItems klines step (interval / step).toNat candle.1
    items ≠ [] →
      ((∀ n, SigDigits mpdCtx (((items.take n).map fun i => i.volume.value).sum)) →
        candle.2.volume.value = (items.map fun i => i.volume.value).sum) ∧
      ((∀ n, SigDigits mpdCtx (((items.take n).map fun i => i.deal.value).sum)) →
        candle.2.deal.value = (items.map fun i => i.deal.value).sum)

/-- Candles of an interval, from a start that is a multiple of it. -/
theorem klineRange_series (pos : 0 < step) (whole : step ∣ interval) (wide : 0 < interval)
    (sane : ∀ u item, dictFind klines u = some item → item.Sane)
    (grid : ∀ u item, dictFind klines u = some item → step ∣ u) (aligned : interval ∣ start) :
    IsSeries klines (min start bound) step interval start stop
      (klineRange klines step bound start stop interval) := by
  have length : interval = ((interval / step).toNat : ℤ) * step := by
    rw [Int.toNat_of_nonneg (Int.ediv_nonneg wide.le pos.le), Int.ediv_mul_cancel whole]
  have stepStart : step ∣ start := whole.trans aligned
  have relative (t : ℤ) (dvd : step ∣ t) : ∀ u item, dictFind klines u = some item →
      step ∣ u - t := fun u item found => Int.dvd_sub (grid u item found) dvd
  have series := (klineSeries_candles pos length sane (relative start stepStart)
    (min_le_left start bound) (getLastKline_known pos (relative start stepStart))
    ((stop - start) / interval + 1).toNat).1
  have multiple : ∀ s ∈ ticksTo start stop interval, interval ∣ s := by
    intro s mem
    have := Int.dvd_add ((mem_ticksTo wide).mp mem).2.2 aligned
    rwa [Int.sub_add_cancel] at this
  have starts : ∀ candle ∈ klineRange klines step bound start stop interval,
      candle.1 ∈ ticksTo start stop interval := by
    intro candle mem
    rcases series.1 with ⟨k, same, _⟩
    have here : candle.1 ∈ (ticksTo start stop interval).drop k := by
      rw [← show _ = (ticksTo start stop interval).drop k from same]
      exact List.mem_map_of_mem mem
    exact List.mem_of_mem_drop here
  refine ⟨series, ?_, ?_, ?_, ?_⟩
  · intro candle mem
    have here := starts candle mem
    exact ⟨multiple _ here, ((mem_ticksTo wide).mp here).2.1⟩
  · intro u above below
    have rest := Int.emod_nonneg (u - start) wide.ne'
    have less := Int.emod_lt_of_pos (u - start) wide
    have split := Int.mul_ediv_add_emod (u - start) interval
    refine ⟨u - (u - start) % interval, ?_, by omega, by omega⟩
    refine (mem_ticksTo wide).mpr ⟨?_, by omega, (u - start) / interval, by omega⟩
    have := Int.mul_nonneg wide.le (Int.ediv_nonneg (by omega : 0 ≤ u - start) wide.le)
    omega
  · intro u item found s mem above below
    have dvd := whole.trans (multiple s mem)
    refine ⟨mem_ticks_slot pos length above below (relative s dvd u item found),
      (ticks_sorted pos).imp fun less => less.ne, ?_⟩
    intro s' mem' here
    rcases lt_of_mem_ticks pos length here with ⟨above', below'⟩
    rcases multiple s mem with ⟨a, rfl⟩
    rcases multiple s' mem' with ⟨b, rfl⟩
    have left : a < b + 1 := by
      apply lt_of_mul_lt_mul_left _ wide.le
      linarith
    have right : b < a + 1 := by
      apply lt_of_mul_lt_mul_left _ wide.le
      linarith
    rw [show a = b by omega]
  · intro candle mem items some_
    apply ((series.2 candle mem).merged some_).exact
    intro item here
    rcases List.mem_filterMap.mp here with ⟨u, _, found⟩
    exact sane u item found

end Series

section Retention

variable [Libmpdec] [Settings] {info : MarketInfo} {now start stop interval : ℤ}

omit [Libmpdec] [Settings] in
/-- Rounding down to a multiple. -/
theorem rounded_down {t : ℤ} (nonneg : 0 ≤ t) (wide : 0 < interval) :
    interval ∣ t.tdiv interval * interval ∧ t.tdiv interval * interval ≤ t ∧
      t < t.tdiv interval * interval + interval := by
  rw [Int.tdiv_eq_ediv_of_nonneg nonneg]
  have rest := Int.emod_nonneg t wide.ne'
  have less := Int.emod_lt_of_pos t wide
  have split := Int.ediv_mul_add_emod t interval
  exact ⟨⟨t / interval, Int.mul_comm _ _⟩, by omega, by omega⟩

/-- Second and minute candles begin at the multiple of the interval at or before the
start, which is no earlier than what is kept. Each is merged from what is stored in its
slot, or flat at the close of what was stored last, in what is kept or since the first
slot began; only before that there is none. -/
theorem kline_series
    (sane : ∀ type u item, dictFind (info.klines type) u = some item → item.Sane)
    (minutes : ∀ u item, dictFind (info.klines .min) u = some item → 60 ∣ u) (begun : 0 < start)
    (wide : 0 < interval) :
    (interval < 60 → 60 % interval = 0 →
      let first := secStart now start interval
      (interval ∣ first ∧ first ≤ max start (now - Settings.secMax) ∧
        max start (now - Settings.secMax) < first + interval) ∧
      IsSeries (info.klines .sec) (min first (now - Settings.secMax)) 1 interval first stop
        (getMarketKlineSec info now start stop interval)) ∧
    (60 ≤ interval → interval < 3600 → interval % 60 = 0 → 3600 % interval = 0 →
      let first := minStart now start interval
      (interval ∣ first ∧ first ≤ max start (minBound now) ∧
        max start (minBound now) < first + interval) ∧
      IsSeries (info.klines .min) (min first (minBound now)) 60 interval first stop
        (getMarketKlineMin info now start stop interval)) := by
  constructor
  · intro _ _ first
    have round := rounded_down ((begun.trans_le (le_max_left _ _)).le :
      0 ≤ max start (now - Settings.secMax)) wide
    refine ⟨round, ?_⟩
    exact klineRange_series one_pos (one_dvd _) wide (sane .sec) (fun _ _ _ => one_dvd _) round.1
  · intro _ _ whole _ first
    have round := rounded_down ((begun.trans_le (le_max_left _ _)).le :
      0 ≤ max start (minBound now)) wide
    refine ⟨round, ?_⟩
    exact klineRange_series (by decide) (Int.dvd_of_emod_eq_zero whole) wide (sane .min) minutes
      round.1

end Retention

/-! ## A slot at the edge -/

section Small

attribute [local instance] Libmpdec.reference smallText smallTime smallRetention

/-- A market with one k-line, of the second 25. -/
def edgeMarket : MarketInfo :=
  { createMarket "BTCCNY" with
    klines := fun
      | .sec => dictReplace ∅ 25 (klineInfoNew mpdTen)
      | _ => ∅ }

theorem edgeMarket_find {type : KlineType} {u : ℤ} {item : KlineInfo}
    (found : dictFind (edgeMarket.klines type) u = some item) :
    type = .sec ∧ u = 25 ∧ item = klineInfoNew mpdTen := by
  cases type with
  | sec =>
      by_cases same : u = 25
      · subst same
        exact ⟨rfl, rfl, (Option.some.inj found).symm⟩
      · change dictFind (dictReplace ∅ 25 (klineInfoNew mpdTen)) u = some item at found
        rw [dictFind_replace_ne same, dictFind_empty] at found
        cases found
  | min => cases found
  | hour => cases found
  | day => cases found

theorem edgeMarket_sane (type : KlineType) (u : ℤ) (item : KlineInfo)
    (found : dictFind (edgeMarket.klines type) u = some item) : item.Sane := by
  rcases edgeMarket_find found with ⟨_, _, rfl⟩
  exact ⟨klineInfoNew_isFinite rfl, le_rfl, le_rfl⟩

/-- What is kept begins at the second 30, and the first slot of twenty at 20: the candle
at 40 repeats a price from before 30. -/
theorem candle_from_before : ¬ ∀ {info : MarketInfo} {now start stop interval : ℤ},
    (∀ type u item, dictFind (info.klines type) u = some item → item.Sane) → 0 < start →
    start ≤ stop → stop ≤ now → 0 < interval → interval < 60 → 60 % interval = 0 →
    IsSeries (info.klines .sec) (now - Settings.secMax) 1 interval (secStart now start interval)
      stop (getMarketKlineSec info now start stop interval) := by
  intro all
  have series := @all edgeMarket (86400 * 7 + 30) 1 50 20 edgeMarket_sane (by decide) (by decide)
    (by decide) (by decide) (by decide) (by decide)
  have candle : ∃ candle ∈ getMarketKlineSec edgeMarket (86400 * 7 + 30) 1 50 20,
      candle.1 = 40 ∧ slotItems (edgeMarket.klines .sec) 1 20 candle.1 = [] := by
    refine ⟨(40, klineInfoNew mpdTen), ?_, rfl, by decide +kernel⟩
    have both : (getMarketKlineSec edgeMarket (86400 * 7 + 30) 1 50 20)[1]? =
        some (40, klineInfoNew mpdTen) := by
      decide +kernel
    exact List.mem_of_getElem? both
  rcases candle with ⟨candle, mem, at_, empty⟩
  rcases (series.candles.2 candle mem).flat empty with ⟨u, item, near, _⟩
  rcases edgeMarket_find near.stored with ⟨_, rfl, _⟩
  exact absurd near.inside.1 (by decide)

theorem kline_series_small : IsSeries (edgeMarket.klines .sec) 20 1 20 20 50
    (getMarketKlineSec edgeMarket (86400 * 7 + 30) 1 50 20) := by
  have minutes : ∀ u item, dictFind (edgeMarket.klines .min) u = some item → 60 ∣ u := by
    intro u item found
    cases (edgeMarket_find found).1
  exact ((@kline_series _ _ edgeMarket (86400 * 7 + 30) 1 50 20 edgeMarket_sane minutes (by decide)
    (by decide)).1 (by decide) (by decide)).2

end Small

end ViabtcServer.MarketPrice
